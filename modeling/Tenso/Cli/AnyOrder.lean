import Tenso.Cli.Moments

/-!
# What an ingest leaves

An ingest whose flushes succeed leaves in the store what its outcomes say, whatever the order in which they come
(`ingest_leaves`): the slots of its blocks have the rows and the steps of the blocks, every attempted slot has its
status, all other slots are as before, and the candles are refreshed from the trades of the range.

Nothing in this depends on the order of the outcomes, the number of workers, the size of the batches or the iteration
orders of the hash maps, so two ingests of one range over the same answers agree (`ingest_anyOrder`).
-/

namespace Tenso.Cli

open Tenso.Ingest (DecodedBlock FetchOutcome fetchOutcome getBlock)
open Storage Ohlcv

/-! ## A store stage, flush by flush -/

/-- What flushes of the blocks of `all`, in their order, and status writes keep. -/
structure KeptByFlushes (all : List DecodedBlock) (I : List DecodedBlock → Store → Prop) : Prop where
  flush : ∀ {flushed blocks : List DecodedBlock} {st st' : Store}, flushed ++ blocks <+: all → Flushed blocks st st' →
    I flushed st → I (flushed ++ blocks) st'
  status : ∀ {flushed : List DecodedBlock} {st : Store} {t : Table IngestionStatusRow.slot}, I flushed st →
    I flushed { st with ingestionStatus := t }

/-- The blocks of `done` are flushed with `I`, or they are pending. -/
structure Staging (I : List DecodedBlock → Store → Prop) (done : List FetchOutcome) (s : StoreState) : Prop where
  idle : s.conn.txn = none
  kept : ∃ flushed pending, ingestedBlocks done = flushed ++ pending ∧ s.pending = pending.map parseBlock ∧
    I flushed s.conn.store

section Stage

variable {I : List DecodedBlock → Store → Prop} {f : Faults} {c : Conn Store} {batchSize : ℕ}

theorem ingestedBlocks_append (os os' : List FetchOutcome) :
    ingestedBlocks (os ++ os') = ingestedBlocks os ++ ingestedBlocks os' := by
  rw [ingestedBlocks, List.filterMap_append]
  rfl

theorem Staging.record {all : List DecodedBlock} {done : List FetchOutcome} {o : FetchOutcome} {s s' : StoreState}
    (hI : KeptByFlushes all I) (h : Staging I done s) (hrec : recordOutcome f (parseOutcome o) s = (.ok (), s')) :
    Staging I (done ++ [o]) s' := by
  obtain ⟨hidle, hpending, hstore⟩ := recordOutcome_eq_ok h.idle hrec
  obtain ⟨flushed, pending, hdone, hp, hkept⟩ := h.kept
  refine ⟨hidle, flushed, pending ++ ingestedBlocks [o], ?_, ?_, ?_⟩
  · rw [ingestedBlocks_append, hdone, List.append_assoc]
  · rw [hpending, hp, blocks_parseOutcome, List.map_append]
  · rw [hstore]
    exact hI.status hkept

theorem Staging.flush {all : List DecodedBlock} {done : List FetchOutcome} {s : StoreState} (hI : KeptByFlushes all I)
    (h : Staging I done s) (hall : ingestedBlocks done <+: all) (hok : (flushPending f s).1 = .ok ()) :
    (flushPending f s).2.conn.txn = none ∧ I (ingestedBlocks done) (flushPending f s).2.conn.store := by
  obtain ⟨hidle, flushed, pending, hdone, hp, hkept⟩ := h
  obtain ⟨⟨pending', _, _, _, _⟩, ⟨st, txn, n⟩⟩ := s
  simp only at hidle hp
  subst hidle hp
  simp only [flushPending] at hok ⊢
  rw [hdone] at hall ⊢
  rcases flush_cases f pending st n with ⟨e, m, hrun, _⟩ | ⟨st', m, hrun, _, _, hflush⟩ | ⟨_, _, e, _, _, hrun, _⟩
  · rw [hrun] at hok
    cases hok
  · rw [hrun]
    exact ⟨rfl, hI.flush hall hflush hkept⟩
  · rw [hrun] at hok
    cases hok

/-- The loop, when its flushes succeed. -/
theorem storeLoop_staging {outcomes : List FetchOutcome} (hI : KeptByFlushes (ingestedBlocks outcomes) I)
    (hidle : c.txn = none) (h0 : I [] c.store) (hflush : FlushesSucceed f batchSize (outcomes.map parseOutcome) c)
    {done rest : List FetchOutcome} (hsplit : outcomes = done ++ rest) {s : StoreState}
    (h : storeLoop f batchSize (done.map parseOutcome) (.init c) = (.ok (), s)) : Staging I done s := by
  induction done using List.reverseRecOn generalizing rest s with
  | nil =>
    cases h
    exact ⟨hidle, [], [], rfl, rfl, h0⟩
  | append_singleton done o ih =>
    rw [List.append_assoc, List.singleton_append] at hsplit
    rw [List.map_append, List.map_singleton] at h
    obtain ⟨t, hpre, hlast⟩ := storeLoop_append.1 h
    obtain ⟨t', hrec, rfl⟩ := storeOutcome_eq_ok.1 (storeLoop_singleton.1 hlast)
    have hstaging := (ih hsplit hpre).record hI hrec
    split
    · rename_i hfull
      have hok := hflush (done.map parseOutcome) (parseOutcome o) (rest.map parseOutcome) t t'
        (by rw [hsplit, List.map_append, List.map_cons]) hpre hrec hfull
      have hall : ingestedBlocks (done ++ [o]) <+: ingestedBlocks outcomes := by
        rw [hsplit, List.append_cons done o rest, ingestedBlocks_append (done ++ [o]) rest]
        exact List.prefix_append _ _
      obtain ⟨hidle', hkept⟩ := hstaging.flush hI hall hok
      exact ⟨hidle', ingestedBlocks (done ++ [o]), [], (List.append_nil _).symm, rfl, hkept⟩
    · exact hstaging

/-- A store stage whose flushes succeed keeps what its flushes and status writes keep. -/
theorem storeStage_keeps {outcomes : List FetchOutcome} (hI : KeptByFlushes (ingestedBlocks outcomes) I)
    (hidle : c.txn = none) (h0 : I [] c.store) (hflush : FlushesSucceed f batchSize (outcomes.map parseOutcome) c)
    {counts : ℕ × ℕ × ℕ × ℕ} {s : StoreState}
    (h : storeStage f batchSize (outcomes.map parseOutcome) c = (.ok counts, s)) :
    s.conn.txn = none ∧ I (ingestedBlocks outcomes) s.conn.store := by
  obtain ⟨t, hloop, hend⟩ := storeStage_eq_ok h
  have hstaging := storeLoop_staging hI hidle h0 hflush (List.append_nil outcomes).symm hloop
  rcases hend with ⟨hempty, rfl⟩ | hlast
  · obtain ⟨flushed, pending, hdone, hp, hkept⟩ := hstaging.kept
    rw [hempty, eq_comm, List.map_eq_nil_iff] at hp
    rw [hp, List.append_nil] at hdone
    exact ⟨hstaging.idle, hdone ▸ hkept⟩
  · have hdone := hstaging.flush (f := f) hI (List.prefix_refl _) (by rw [hlast])
    rwa [hlast] at hdone

/-- The loop upserts the statuses of its outcomes, one after the other. -/
theorem storeLoop_statuses {outcomes : List ParsedOutcome} (hidle : c.txn = none) {s : StoreState}
    (h : storeLoop f batchSize outcomes (.init c) = (.ok (), s)) :
    s.conn.store.ingestionStatus = c.store.ingestionStatus.upsertAll (outcomes.map statusRow) := by
  induction outcomes using List.reverseRecOn generalizing s with
  | nil =>
    cases h
    rfl
  | append_singleton outcomes o ih =>
    obtain ⟨t, hpre, hlast⟩ := storeLoop_append.1 h
    have hturn := storeOutcome_frame (storeLoop_frame hidle hpre).1 (storeLoop_singleton.1 hlast)
    rw [hturn.2.1, ih hpre, List.map_append, Table.upsertAll, Table.upsertAll, List.foldl_append]
    rfl

theorem storeStage_statuses {outcomes : List ParsedOutcome} (hidle : c.txn = none) {counts : ℕ × ℕ × ℕ × ℕ}
    {s : StoreState} (h : storeStage f batchSize outcomes c = (.ok counts, s)) :
    s.conn.store.ingestionStatus = c.store.ingestionStatus.upsertAll (outcomes.map statusRow) := by
  obtain ⟨t, hloop, hend⟩ := storeStage_eq_ok h
  rw [(storeStage_frame (storeLoop_frame hidle hloop).1 hend).1, storeLoop_statuses hidle hloop]

end Stage

/-! ## The rows of a slot -/

/-- What a store holds of a slot, with the steps. -/
def storedTables (st : Store) (slot : Int64) : SlotTables where
  blocks := st.blocks.rows.filter (·.slot = slot)
  transactions := st.transactions.rows.filter (·.slot = slot)
  accountLocks := st.accountLocks.rows.filter (·.slot = slot)
  tokenBalanceChanges := st.tokenBalanceChanges.rows.filter (·.slot = slot)

/-- What a flushed block leaves at its slot, with the steps of its schedule. -/
def scheduledTables (d : DecodedBlock) : SlotTables where
  blocks := [blocksRow (parseBlock d).slotRow]
  transactions := (newTransactions (parseBlock d).slotRow).map (withStep (scheduledSteps d))
  accountLocks := newAccountLocks (parseBlock d).slotRow
  tokenBalanceChanges := newTokenBalanceChanges (parseBlock d).slotRow

theorem storedTables_sameSlot {st st' : Store} {slot : Int64} (h : SameSlot slot st st') :
    storedTables st' slot = storedTables st slot := by
  simp only [storedTables, h.blocks, h.transactions, h.accountLocks, h.tokenBalanceChanges]

/-- The last block of a slot leaves its rows and its steps. -/
theorem Flushed.scheduled {pre post : List DecodedBlock} {d : DecodedBlock} {st st' : Store}
    (h : Flushed (pre ++ d :: post) st st') (hlast : d.slot ∉ post.map (·.slot)) :
    storedTables st' d.slot.toInt64 = scheduledTables d := by
  obtain ⟨st₁, hst₁, hrows, heq⟩ := h.replaced
  have hholds := holds_live hst₁ hlast
  have hnodup : ((scheduledSteps d).map (·.1)).Nodup := by
    rw [scheduledSteps_signatures, ← newTransactions_signatures]
    exact hholds.signatures_nodup
  have hsteps : ∀ r ∈ newTransactions (parseBlock d).slotRow,
      withStep (blockUpdates (pre ++ d :: post)) r = withStep (scheduledSteps d) r := by
    intro r hr
    have hsig : r.signature ∈ (scheduledSteps d).map (·.1) := by
      rw [scheduledSteps_signatures, ← newTransactions_signatures]
      exact List.mem_map_of_mem hr
    obtain ⟨u, hu, hsig⟩ := List.mem_map.1 hsig
    rw [withStep, withStep, ← hsig, lastStep_live hst₁ hlast hu, lastStep_eq_some hnodup hu]
  ext1
  · rw [heq]
    exact hholds.blocks
  · calc st'.transactions.rows.filter (·.slot = d.slot.toInt64)
        = (newTransactions (parseBlock d).slotRow).map (withStep (blockUpdates (pre ++ d :: post))) := by
          rw [hrows, filter_map_withStep, ← hholds.transactions]
          rfl
      _ = (newTransactions (parseBlock d).slotRow).map (withStep (scheduledSteps d)) := List.map_congr_left hsteps
  · rw [heq]
    exact hholds.accountLocks
  · rw [heq]
    exact hholds.tokenBalanceChanges

/-- The store after flushes of blocks of distinct slots: the rows of these blocks, and what was there at other slots. -/
structure Filled (P : DecodedBlock → Prop) (st₀ : Store) (flushed : List DecodedBlock) (st : Store) : Prop where
  rows : ∀ d ∈ flushed, storedTables st d.slot.toInt64 = scheduledTables d
  other : ∀ slot, slot ∉ flushed.map (·.slot.toInt64) → storedTables st slot = storedTables st₀ slot
  oneBlock : ∀ slot, OneBlock P st slot
  candles : st.candles = st₀.candles

theorem keptByFlushes_filled {P : DecodedBlock → Prop} {st₀ : Store} {all : List DecodedBlock} (hP : ∀ d ∈ all, P d)
    (hnodup : (all.map (·.slot)).Nodup) : KeptByFlushes all (Filled P st₀) where
  flush := by
    intro flushed blocks st st' hseen hflush h
    have hd : ((flushed ++ blocks).map (·.slot)).Nodup := hnodup.sublist (hseen.sublist.map _)
    rw [List.map_append, List.nodup_append] at hd
    obtain ⟨_, hblocks, hdisj⟩ := hd
    refine ⟨fun d hd => ?_, fun slot hs => ?_, ?_, hflush.candles.trans h.candles⟩
    · rcases List.mem_append.1 hd with hd | hd
      · have hno : d.slot.toInt64 ∉ blocks.map (·.slot.toInt64) := by
          intro hm
          obtain ⟨d', hd', he⟩ := List.mem_map.1 hm
          exact hdisj _ (List.mem_map_of_mem hd) _ (List.mem_map_of_mem hd') (toInt64_injective he).symm
        rw [storedTables_sameSlot (hflush.frame hno)]
        exact h.rows d hd
      · obtain ⟨pre, post, rfl⟩ := List.append_of_mem hd
        refine hflush.scheduled ?_
        rw [List.map_append, List.map_cons] at hblocks
        exact (List.nodup_cons.1 (List.nodup_append.1 hblocks).2.1).1
    · rw [List.map_append, List.mem_append, not_or] at hs
      rw [storedTables_sameSlot (hflush.frame hs.2)]
      exact h.other slot hs.1
    · exact hflush.flushedTo.oneBlock h.oneBlock fun d hd => hP d (hseen.subset (List.mem_append_right _ hd))
  status h := ⟨h.rows, h.other, h.oneBlock, h.candles⟩

/-! ## What an ingest leaves -/

/-- What an ingest leaves: the rows of the fetched blocks, the statuses of the attempted slots, and candles refreshed
from the trades in the range of the candle pass. All else is as before. -/
structure Leaves (A : Arithmetic) (args : IngestArgs) (answers : Answers) (st₀ st : Store) : Prop where
  ingested : ∀ d ∈ ingestedBlocks (args.outcomes answers), storedTables st d.slot.toInt64 = scheduledTables d
  other : ∀ slot, slot ∉ (ingestedBlocks (args.outcomes answers)).map (·.slot.toInt64) →
    storedTables st slot = storedTables st₀ slot
  statuses : ∀ o ∈ args.outcomes answers, st.ingestionStatus.get o.slot.toInt64 = some (statusRow (parseOutcome o))
  otherStatuses : ∀ slot, slot ∉ (args.outcomes answers).map (·.slot.toInt64) →
    st.ingestionStatus.get slot = st₀.ingestionStatus.get slot
  candles : Refreshed A
    (storedTrades A (st.tokenBalanceChanges.rows.filter fun r => between args.startSlot args.toSlot r.slot))
    st₀.candles st.candles

theorem slotRange_nodup (startSlot count : UInt64) : (Tenso.Ingest.slotRange startSlot count).Nodup := by
  by_cases h : startSlot.toNat + count.toNat < 2 ^ 64
  · refine .of_map (·.toNat) ?_
    rw [Tenso.Ingest.slotRange_toNat h]
    exact List.nodup_range.map (add_right_injective _)
  · rw [Tenso.Ingest.slotRange_wraps (by omega)]
    exact List.nodup_nil

/-- The slots of the outcomes are the attempted ones. -/
theorem IngestArgs.outcomes_slots (args : IngestArgs) (answers : Answers) :
    (args.outcomes answers).map (·.slot) = args.attempted := by
  rw [outcomes, List.map_map]
  conv => rhs; rw [← List.map_id args.attempted]
  exact List.map_congr_left fun slot _ => Tenso.Ingest.slot_fetchOutcome slot

theorem IngestArgs.outcomes_nodup (args : IngestArgs) (answers : Answers) :
    ((args.outcomes answers).map (·.slot)).Nodup := by
  rw [outcomes_slots, attempted]
  split
  · exact List.nodup_nil
  · exact slotRange_nodup _ _

/-- The slots of the blocks are slots of the outcomes. -/
theorem ingestedBlocks_slots : ∀ os : List FetchOutcome, ((ingestedBlocks os).map (·.slot)).Sublist (os.map (·.slot))
  | [] => .slnil
  | .ingested block :: os => (ingestedBlocks_slots os).cons_cons block.slot
  | .skipped slot :: os => (ingestedBlocks_slots os).cons slot
  | .failed slot _ :: os => (ingestedBlocks_slots os).cons slot

theorem ingestedBlocks_perm {os os' : List FetchOutcome} (h : os.Perm os') :
    (ingestedBlocks os).Perm (ingestedBlocks os') := h.filterMap _

/-- The statuses of outcomes of distinct slots. -/
theorem get_statuses {table : Table IngestionStatusRow.slot} {os : List FetchOutcome} (hd : (os.map (·.slot)).Nodup) :
    (∀ o ∈ os, (table.upsertAll ((os.map parseOutcome).map statusRow)).get o.slot.toInt64 =
      some (statusRow (parseOutcome o))) ∧
    ∀ slot, slot ∉ os.map (·.slot.toInt64) →
      (table.upsertAll ((os.map parseOutcome).map statusRow)).get slot = table.get slot := by
  have hkey (o : FetchOutcome) : (statusRow (parseOutcome o)).slot = o.slot.toInt64 :=
    congrArg UInt64.toInt64 (slot_parseOutcome o)
  have hrow {r : IngestionStatusRow} (hr : r ∈ (os.map parseOutcome).map statusRow) :
      ∃ o ∈ os, statusRow (parseOutcome o) = r := by
    rw [List.map_map] at hr
    exact List.mem_map.1 hr
  constructor
  · intro o ho
    rw [← hkey]
    apply Table.get_upsertAll_of_mem
    · intro r hr r' hr' he
      obtain ⟨o₁, ho₁, rfl⟩ := hrow hr
      obtain ⟨o₂, ho₂, rfl⟩ := hrow hr'
      rw [hkey, hkey] at he
      rw [List.inj_on_of_nodup_map hd ho₁ ho₂ (toInt64_injective he)]
    · rw [List.map_map]
      exact List.mem_map_of_mem (f := fun o => statusRow (parseOutcome o)) ho
  · intro slot hs
    rcases table.get_upsertAll ((os.map parseOutcome).map statusRow) slot with ⟨r, hr, rfl, _⟩ | ⟨_, hget⟩
    · obtain ⟨o, ho, rfl⟩ := hrow hr
      exact absurd (hkey o ▸ List.mem_map_of_mem (f := fun o : FetchOutcome => o.slot.toInt64) ho) hs
    · exact hget

theorem leaves_of_done {S : Setting} {c₀ : Conn Store} {s : IngestState} {stats : DbStats}
    (hc₀ : Written c₀) (h : Transition.Reachable (ingest S c₀) s)
    (hdone : s.job.phase = .done stats)
    (hflush : FlushesSucceed S.faults S.args.batchSize s.job.stages.pipeline.processed c₀) :
    Leaves S.arith S.args S.answers c₀.store s.conn.store ∧ Coherent s.conn.store.tokenBalanceChanges.rows := by
  obtain ⟨hprocessed, hperm, ⟨staged, hstaged, hpass⟩, hstats⟩ := ingest_done h hdone
  obtain ⟨hidle, hone⟩ := hc₀
  generalize s.job.stages.pipeline.emitted = emitted at hprocessed hperm
  rw [hprocessed] at hstaged hflush
  have hnodup : (emitted.map (·.slot)).Nodup := (hperm.map _).nodup_iff.2 (S.args.outcomes_nodup S.answers)
  -- the store stage
  have hblocks : ((ingestedBlocks emitted).map (·.slot)).Nodup := hnodup.sublist (ingestedBlocks_slots _)
  obtain ⟨hidle', hfilled⟩ := storeStage_keeps (keptByFlushes_filled (fun _ _ => trivial) hblocks) hidle
    ⟨nofun, fun _ _ => rfl, hone, rfl⟩ hflush hstaged
  have hstatuses : staged.store.ingestionStatus = _ := storeStage_statuses hidle hstaged
  obtain ⟨hget, hother⟩ := @get_statuses c₀.store.ingestionStatus emitted hnodup
  rw [← hstatuses] at hget hother
  -- the candle pass
  obtain ⟨hread, hcoh⟩ := OneBlock.coherent hfilled.oneBlock
  obtain ⟨_, trades, htrades, hstore⟩ := buildAndStoreCandles_spec hidle' hread hcoh hpass
  rw [hstore]
  refine ⟨?_, hcoh⟩
  have hfetched := ingestedBlocks_perm hperm
  refine ⟨fun d hd => hfilled.rows d (hfetched.mem_iff.2 hd), fun slot hs => hfilled.other slot ?_,
    fun o ho => hget o (hperm.mem_iff.2 ho), fun slot hs => hother slot ?_, ?_⟩
  · exact fun hm => hs ((hfetched.map _).mem_iff.1 hm)
  · exact fun hm => hs ((hperm.map _).mem_iff.1 hm)
  · rw [← htrades, ← show staged.store.candles = c₀.store.candles from hfilled.candles]
    exact refreshed_upsertAll S.orders trades staged.store.candles

/-- The flush of the block of slot 5 succeeds, in batches of one. -/
theorem flushesSucceed_buyOne {st : Store}
    (hok : (flushParsedBatch (fun _ => false) [parseBlock (buyBlock 5)]
      (Conn.execute (fun _ => false) (upsertIngestionStatus 5 "ingested" none) ⟨st, none, 0⟩).2).1 = .ok ()) :
    FlushesSucceed (fun _ => false) 1 [parseOutcome (.ingested (buyBlock 5))] ⟨st, none, 0⟩ := by
  intro pre o rest s s' hsplit hloop hrec _
  obtain ⟨rfl, rfl⟩ : pre = [] ∧ o = parseOutcome (.ingested (buyBlock 5)) := by
    cases pre with
    | nil => exact ⟨rfl, (List.cons.inj hsplit).1.symm⟩
    | cons _ pre => simp at hsplit
  cases hloop
  cases hrec
  exact hok

/-- **What an ingest leaves.** An ingest that is over, and whose flushes in the middle of the run have succeeded, has
left what the outcomes of its slots say, on any store that the repository has written. -/
theorem ingest_leaves (S : Setting) (c₀ : Conn Store) (s : IngestState) (stats : DbStats)
    (hc₀ : Written c₀) (h : Transition.Reachable (ingest S c₀) s)
    (hdone : s.job.phase = .done stats)
    (hflush : FlushesSucceed S.faults S.args.batchSize s.job.stages.pipeline.processed c₀) :
    Leaves S.arith S.args S.answers c₀.store s.conn.store := (leaves_of_done hc₀ h hdone hflush).1

/-- The ingest of one block leaves its rows. -/
theorem ingest_leaves_example : ∃ s : IngestState,
    ingestedBlocks ((buySetting 1).args.outcomes (buySetting 1).answers) = [buyBlock 5] ∧
    Leaves .exact (buySetting 1).args (buySetting 1).answers .empty s.conn.store := by
  obtain ⟨s, stats, h, hdone, hprocessed, _⟩ :=
    @exists_one (fun slot => (buyBlock slot).transactions) rfl _ candles_boughtConn
  exact ⟨s, by decide +kernel, ingest_leaves (buySetting 1) ⟨.empty, none, 0⟩ s stats written_of_empty h hdone
    (hprocessed ▸ flushesSucceed_buyOne (by decide +kernel))⟩

/-! ## Any order -/

/-- The stores of two ingests agree: on the rows of every slot with their steps, on the statuses, on the keys, highs
and lows of the candles, and in exact arithmetic on their volumes. -/
structure SameData (A : Arithmetic) (st st' : Store) : Prop where
  rows : ∀ slot, storedTables st slot = storedTables st' slot
  statuses : ∀ slot, st.ingestionStatus.get slot = st'.ingestionStatus.get slot
  candles : ∀ key, (st.candles.get key).map (fun r => (r.high, r.low)) =
    (st'.candles.get key).map (fun r => (r.high, r.low))
  volumes : A = .exact → ∀ key, (st.candles.get key).map (·.volume) = (st'.candles.get key).map (·.volume)

/-- Lists with the same groups are permutations of each other. -/
theorem perm_of_filter_eq {α κ : Type} [DecidableEq κ] {g : α → κ} {l l' : List α}
    (h : ∀ k, l.filter (g · = k) = l'.filter (g · = k)) : l.Perm l' := by
  classical
  rw [List.perm_iff_count]
  intro x
  have hcount (l : List α) : l.count x = (l.filter (g · = g x)).count x := by
    rw [List.count_filter]
    exact decide_eq_true rfl
  rw [hcount l, hcount l', h]

/-- The number of candles of an interval depends on the keys only. -/
theorem sumInterval_congr {st st' : Store}
    (h : ∀ key, (st.candles.get key).isSome = (st'.candles.get key).isSome) (intervalSec : Int32) :
    sumInterval intervalSec st.candles.rows = sumInterval intervalSec st'.candles.rows := by
  have hnodup (st : Store) : ((st.candles.rows.filter (·.intervalSec = intervalSec)).map CandlesRow.key).Nodup :=
    st.candles.keyed.sublist (List.filter_sublist.map _)
  have hmem (st : Store) (key : String × Int32 × ℤ) :
      key ∈ (st.candles.rows.filter (·.intervalSec = intervalSec)).map CandlesRow.key ↔
        key.2.1 = intervalSec ∧ (st.candles.get key).isSome := by
    simp only [Option.isSome_iff_exists, Table.get_eq_some, List.mem_map, List.mem_filter, decide_eq_true_eq]
    constructor
    · rintro ⟨r, ⟨hr, rfl⟩, rfl⟩
      exact ⟨rfl, r, hr, rfl⟩
    · rintro ⟨rfl, r, hr, rfl⟩
      exact ⟨r, ⟨hr, rfl⟩, rfl⟩
  have hperm := (List.perm_ext_iff_of_nodup (hnodup st) (hnodup st')).2 fun key => by rw [hmem, hmem, h]
  have hlen := hperm.length_eq
  rwa [List.length_map, List.length_map, ← List.countP_eq_length_filter, ← List.countP_eq_length_filter] at hlen

/-- Stores with the same data have the same statistics. -/
theorem SameData.stats {A : Arithmetic} {st st' : Store} (h : SameData A st st') :
    queryDbStats st = queryDbStats st' := by
  have hblocks := perm_of_filter_eq fun slot => congrArg SlotTables.blocks (h.rows slot)
  have htransactions := perm_of_filter_eq fun slot => congrArg SlotTables.transactions (h.rows slot)
  have htokens := perm_of_filter_eq fun slot => congrArg SlotTables.tokenBalanceChanges (h.rows slot)
  have hkeys (key : String × Int32 × ℤ) : (st.candles.get key).isSome = (st'.candles.get key).isSome := by
    have := congrArg Option.isSome (h.candles key)
    rwa [Option.isSome_map, Option.isSome_map] at this
  simp only [queryDbStats, countDistinct, hblocks.length_eq, htransactions.length_eq, htransactions.countP_eq,
    htokens.length_eq, (htokens.map _).dedup.length_eq, ((htokens.filter _).map _).dedup.length_eq,
    sumInterval_congr hkeys]

/-- What an ingest leaves is the same for all ingests. -/
theorem Leaves.same {A : Arithmetic} {args : IngestArgs} {answers : Answers} {st₀ st st' : Store}
    (h : Leaves A args answers st₀ st) (h' : Leaves A args answers st₀ st')
    (hcoh : Coherent st'.tokenBalanceChanges.rows) : SameData A st st' := by
  have hrows : ∀ slot, storedTables st slot = storedTables st' slot := by
    intro slot
    by_cases hs : slot ∈ (ingestedBlocks (args.outcomes answers)).map (·.slot.toInt64)
    · obtain ⟨d, hd, rfl⟩ := List.mem_map.1 hs
      rw [h.ingested d hd, h'.ingested d hd]
    · rw [h.other slot hs, h'.other slot hs]
  have htokens : st.tokenBalanceChanges.rows.Perm st'.tokenBalanceChanges.rows :=
    perm_of_filter_eq fun slot => congrArg SlotTables.tokenBalanceChanges (hrows slot)
  have htrades := @storedTrades_perm A _ _ (hcoh.filter fun r => between args.startSlot args.toSlot r.slot)
    (htokens.filter _)
  have hcandles := h.candles.same (htrades ▸ h'.candles)
  refine ⟨hrows, fun slot => ?_, fun key => (hcandles key).1, fun hA key => (hcandles key).2 hA⟩
  by_cases hs : slot ∈ (args.outcomes answers).map (·.slot.toInt64)
  · obtain ⟨o, ho, rfl⟩ := List.mem_map.1 hs
    rw [h.statuses o ho, h'.statuses o ho]
  · rw [h.otherStatuses slot hs, h'.otherStatuses slot hs]

/-- The flush of the block of slot 5 succeeds at the end of the run, in batches of two. -/
theorem flushesSucceed_buyTwo :
    FlushesSucceed (fun _ => false) 2 [parseOutcome (.ingested (buyBlock 5))] ⟨.empty, none, 0⟩ :=
  flushesSucceed_of_length_lt rfl (by decide)

/-- The settings are of one range, over the same answers, with the same floats. -/
structure Setting.SameRange (S₀ S : Setting) : Prop where
  startSlot : S.args.startSlot = S₀.args.startSlot
  count : S.args.count = S₀.args.count
  answers : S.answers = S₀.answers
  arith : S.arith = S₀.arith

/-- What ingests of one range leave is the same, whatever the workers and the batches are. -/
theorem Setting.SameRange.leaves {S₀ S : Setting} {st₀ st : Store} (h : S₀.SameRange S)
    (hworkers : S₀.args.maxConcurrency ≠ 0 ∧ S.args.maxConcurrency ≠ 0)
    (hleaves : Leaves S.arith S.args S.answers st₀ st) : Leaves S₀.arith S₀.args S₀.answers st₀ st := by
  have hslots : S.args.attempted = S₀.args.attempted := by
    rw [IngestArgs.attempted, IngestArgs.attempted, if_neg hworkers.1, if_neg hworkers.2, IngestArgs.slots,
      IngestArgs.slots, h.startSlot, h.count]
  obtain ⟨hi, ho, hs, hos, hc⟩ := hleaves
  rw [IngestArgs.outcomes, hslots, h.answers] at hi ho hs hos
  rw [IngestArgs.toSlot, h.startSlot, h.count, h.arith] at hc
  exact ⟨hi, ho, hs, hos, hc⟩

/-- **Two ingests agree.** Two ingests of one range over the same answers, on the same store, that are both over and
whose flushes have succeeded, leave the same data and report the same statistics: whatever the number of workers, the
size of the batches, the interleaving of the tasks, the order of the outcomes, the statements that fail and the
iteration orders of the hash maps. -/
theorem ingest_anyOrder (S S' : Setting) (c₀ : Conn Store) (s s' : IngestState) (stats stats' : DbStats)
    (hsame : S.SameRange S') (hworkers : S.args.maxConcurrency ≠ 0 ∧ S'.args.maxConcurrency ≠ 0) (hc₀ : Written c₀)
    (h : Transition.Reachable (ingest S c₀) s) (hdone : s.job.phase = .done stats)
    (hflush : FlushesSucceed S.faults S.args.batchSize s.job.stages.pipeline.processed c₀)
    (h' : Transition.Reachable (ingest S' c₀) s') (hdone' : s'.job.phase = .done stats')
    (hflush' : FlushesSucceed S'.faults S'.args.batchSize s'.job.stages.pipeline.processed c₀) :
    SameData S.arith s.conn.store s'.conn.store ∧ stats = stats' := by
  obtain ⟨hleaves, _⟩ := leaves_of_done hc₀ h hdone hflush
  obtain ⟨hleaves', hcoh⟩ := leaves_of_done hc₀ h' hdone' hflush'
  have hdata := hleaves.same (hsame.leaves hworkers hleaves') hcoh
  refine ⟨hdata, ?_⟩
  rw [(ingest_done h hdone).2.2.2, (ingest_done h' hdone').2.2.2, hdata.stats]

/-- Batches of one and of two leave the same data. -/
theorem ingest_anyOrder_example : ∃ (s s' : IngestState) (stats stats' : DbStats),
    Transition.Reachable (ingest (buySetting 1) ⟨.empty, none, 0⟩) s ∧
    Transition.Reachable (ingest (buySetting 2) ⟨.empty, none, 0⟩) s' ∧
    SameData .exact s.conn.store s'.conn.store ∧ stats = stats' := by
  obtain ⟨s, stats, h, hdone, hprocessed, _⟩ :=
    @exists_one (fun slot => (buyBlock slot).transactions) rfl _ candles_boughtConn
  obtain ⟨s', stats', h', hdone', hprocessed'⟩ := exists_buyTwo
  exact ⟨s, s', stats, stats', h, h', ingest_anyOrder (buySetting 1) (buySetting 2) ⟨.empty, none, 0⟩ s s' stats stats'
    ⟨rfl, rfl, rfl, rfl⟩ ⟨by decide, by decide⟩ written_of_empty h hdone
      (hprocessed ▸ flushesSucceed_buyOne (by decide +kernel)) h' hdone'
    (hprocessed' ▸ flushesSucceed_buyTwo)⟩

end Tenso.Cli
