import Tenso.Cli.Sessions
import Tenso.Cli.AnyOrder
import Tenso.Cli.Ranking

/-!
# What the contention summaries say

At any time in the life of a database, also in the middle of a flush, the rows of a slot come from one fetched block,
and every step that is written is that of its schedule (`OneSchedule`). So every contention summary that a client gets
is that of blocks of distinct slots (`sessions_contention`): the depth is at most the largest depth of a block of the
range, and it is that depth once all steps of the range are written; the accounts are the 20 most written ones with
their exact numbers of writable locks.
-/

namespace Tenso.Cli

open Tenso.Ingest (DecodedBlock)
open Storage

/-! ## Steps at any time -/

/-- The step of a row is not written yet, or it is that of the schedule of the block. -/
def StepOf (d : DecodedBlock) (r : TransactionsRow) : Prop :=
  r.step = none ∨ ∃ u ∈ scheduledSteps d, u.1 = r.signature ∧ r.step = some (Int32.ofNat u.2)

/-- The rows of a slot are those of the block, with none, some or all of its steps. -/
structure HoldsBlock (st : Store) (d : DecodedBlock) : Prop where
  tables : slotTables st d.slot.toInt64 = blockTables d
  steps : ∀ r ∈ st.transactions.rows, r.slot = d.slot.toInt64 → StepOf d r

/-- All rows and steps of a slot are those of one block with `P`. -/
def OneSchedule (P : DecodedBlock → Prop) (st : Store) (slot : Int64) : Prop :=
  slotTables st slot = .none ∨ ∃ d, P d ∧ d.slot.toInt64 = slot ∧ HoldsBlock st d

theorem mem_of_lastStep {us : List (String × ℕ)} {sig : String} {step : ℕ} (h : lastStep us sig = some step) :
    (sig, step) ∈ us := by
  induction us with
  | nil => cases h
  | cons u us ih =>
    rw [lastStep_cons, Option.or_eq_some_iff] at h
    rcases h with h | ⟨_, h⟩
    · exact List.mem_cons_of_mem _ (ih h)
    · split at h
      · rename_i hsig
        cases h
        rw [← hsig]
        exact List.mem_cons_self
      · cases h

section Flush

variable {P : DecodedBlock → Prop} {k : ℕ} {blocks : List DecodedBlock} {st st' : Store}

/-- Two blocks of a batch that share a signature share their slot. -/
theorem slot_eq_of_signature (h : ReplacesAll (slotRows blocks) st st') {d d' : DecodedBlock} (hd : d ∈ blocks)
    (hd' : Holds (parseBlock d').slotRow st') (hsame : ∀ d' ∈ blocks, d'.slot = d.slot → d' = d)
    {r r' : TransactionsRow} (hr : r ∈ newTransactions (parseBlock d).slotRow)
    (hr' : r' ∈ newTransactions (parseBlock d').slotRow) (hsig : r.signature = r'.signature) : d.slot = d'.slot := by
  obtain ⟨pre, last, post, hsplit, hslot, hlast⟩ :=
    exists_last (List.mem_map_of_mem (f := fun d : DecodedBlock => d.slot.toInt64) hd)
  obtain rfl : last = d := hsame last (by rw [hsplit]; simp) (toInt64_injective hslot)
  rw [hsplit] at h
  have hstored := (holds_live h hlast).transactions ▸ hr
  have hstored' := hd'.transactions ▸ hr'
  obtain rfl := Table.eq_of_key (List.mem_of_mem_filter hstored) (List.mem_of_mem_filter hstored') hsig
  exact toInt64_injective ((slot_newTransactions _ r hr).symm.trans (slot_newTransactions _ r hr'))

/-- Frame: the same rows with the same steps. -/
theorem OneSchedule.sameSlot {slot : Int64} (h : OneSchedule P st slot) (hframe : SameSlot slot st st') :
    OneSchedule P st' slot := by
  rcases h with hnone | ⟨d, hd, rfl, htables, hsteps⟩
  · exact Or.inl ((slotTables_sameSlot hframe).trans hnone)
  · refine Or.inr ⟨d, hd, rfl, (slotTables_sameSlot hframe).trans htables, fun r hr hslot => ?_⟩
    have hmem : r ∈ st'.transactions.rows.filter (·.slot = d.slot.toInt64) :=
      List.mem_filter.2 ⟨hr, decide_eq_true hslot⟩
    rw [hframe.transactions] at hmem
    exact hsteps r (List.mem_of_mem_filter hmem) hslot

/-- A flush up to a step leaves one schedule a slot, if blocks of one slot are equal. -/
theorem FlushedTo.oneSchedule (h : FlushedTo k blocks st st') (hone : ∀ slot, OneSchedule P st slot)
    (hP : ∀ d ∈ blocks, P d) (hsame : ∀ d ∈ blocks, ∀ d' ∈ blocks, d'.slot = d.slot → d' = d) :
    ∀ slot, OneSchedule P st' slot := by
  intro slot
  by_cases hs : slot ∈ blocks.map (·.slot.toInt64)
  · obtain ⟨pre, d, post, hsplit, rfl, hlast⟩ := exists_last hs
    have hd : d ∈ blocks := by rw [hsplit]; simp
    obtain ⟨st₁, hst₁, hrows, heq⟩ := h.replaced
    have hholds := holds_live (hsplit ▸ hst₁) hlast
    refine Or.inr ⟨d, hP d hd, rfl, ?_, fun r hr hslot => ?_⟩
    · rw [heq, slotTables_withStep hrows]
      exact slotTables_holds hholds
    · -- the row is a new one, and only its own block has an update for it
      rw [hrows] at hr
      obtain ⟨r₁, hr₁, rfl⟩ := List.mem_map.1 hr
      have hnew : r₁ ∈ newTransactions (parseBlock d).slotRow := by
        rw [← hholds.transactions]
        exact List.mem_filter.2 ⟨hr₁, decide_eq_true hslot⟩
      cases hstep : lastStep ((blockUpdates blocks).take k) r₁.signature with
      | none =>
        refine Or.inl ?_
        simp only [withStep, hstep, newTransactions_step d r₁ hnew]
        rfl
      | some step =>
        have hu := mem_of_lastStep hstep
        obtain ⟨d', hd', hu'⟩ := mem_blockUpdates.1 (List.mem_of_mem_take hu)
        obtain ⟨r', hr', hsig⟩ := exists_newTransactions hu'
        obtain rfl := hsame d hd d' hd' (slot_eq_of_signature hst₁ hd' hholds (hsame d' hd') hr' hnew hsig)
        refine Or.inr ⟨_, hu', rfl, ?_⟩
        simp only [withStep, hstep]
        rfl
  · exact (hone slot).sameSlot (h.frame hs)

/-- The calls of an ingest keep one schedule a slot. -/
theorem keptByCalls_oneSchedule {S : Setting} (hP : ∀ d ∈ ingestedBlocks (S.args.outcomes S.answers), P d) :
    KeptByCalls S fun st => ∀ slot, OneSchedule P st slot where
  flush hown hflush h := by
    have hnodup := (S.args.outcomes_nodup S.answers).sublist (ingestedBlocks_slots _)
    exact hflush.oneSchedule h (fun d hd => hP d (hown d hd)) fun d hd d' hd' hslot =>
      List.inj_on_of_nodup_map hnodup (hown d' hd') (hown d hd) hslot
  status _ h slot := (h slot).sameSlot ⟨rfl, rfl, rfl, rfl⟩
  candles _ _ h slot := (h slot).sameSlot ⟨rfl, rfl, rfl, rfl⟩

end Flush

/-! ## The blocks of a store -/

section Rows

variable {st : Store} {d : DecodedBlock}

theorem HoldsBlock.transactions (h : HoldsBlock st d) :
    (slotTables st d.slot.toInt64).transactions = newTransactions (parseBlock d).slotRow := by
  rw [h.tables]
  rfl

/-- The transactions of a stored block have distinct signatures. -/
theorem HoldsBlock.signatures_nodup (h : HoldsBlock st d) : (d.transactions.map (·.signature)).Nodup := by
  rw [← newTransactions_signatures, ← h.transactions, slotTables, List.map_map]
  exact st.transactions.keyed.sublist (List.filter_sublist.map _)

end Rows

/-- The store holds these blocks, of distinct slots, and no other rows. -/
structure HoldsBlocks (blocks : List DecodedBlock) (st : Store) : Prop where
  slots : (blocks.map (·.slot)).Nodup
  holds : ∀ d ∈ blocks, HoldsBlock st d
  other : ∀ slot, slot ∉ blocks.map (·.slot.toInt64) → slotTables st slot = .none

theorem exists_holdsBlocks {P : DecodedBlock → Prop} {st : Store} (h : ∀ slot, OneSchedule P st slot) :
    ∃ blocks, (∀ d ∈ blocks, P d) ∧ HoldsBlocks blocks st := by
  have hall : ∀ slot ∈ st.blocks.rows.map (·.slot), ∃ d, (P d ∧ HoldsBlock st d) ∧ d.slot.toInt64 = slot := by
    intro slot hslot
    rcases h slot with hnone | ⟨d, hd, hds, hholds⟩
    · obtain ⟨b, hb, hbs⟩ := List.mem_map.1 hslot
      have hmem : b ∈ (slotTables st slot).blocks := List.mem_filter.2 ⟨hb, decide_eq_true hbs⟩
      rw [hnone] at hmem
      cases hmem
    · exact ⟨d, ⟨hd, hholds⟩, hds⟩
  obtain ⟨blocks, hslots, hblocks⟩ := exists_map_eq hall
  refine ⟨blocks, fun d hd => (hblocks d hd).1, ?_, fun d hd => (hblocks d hd).2, fun slot hslot => ?_⟩
  · refine .of_map UInt64.toInt64 ?_
    rw [List.map_map]
    exact hslots ▸ st.blocks.keyed
  · refine (h slot).resolve_right ?_
    rintro ⟨d, _, rfl, hholds⟩
    have hmem : blocksRow (parseBlock d).slotRow ∈ (slotTables st d.slot.toInt64).blocks := by
      rw [hholds.tables]
      exact List.mem_singleton_self _
    rw [hslots] at hslot
    exact hslot (List.mem_map_of_mem (List.mem_of_mem_filter hmem))

theorem latest_eq_self {blocks : List DecodedBlock} (h : (blocks.map (·.slot)).Nodup) : latest blocks = blocks := by
  induction blocks with
  | nil => rfl
  | cons d blocks ih =>
    rw [List.map_cons, List.nodup_cons] at h
    rw [latest, if_neg h.1, ih h.2]

/-- The blocks whose slots a range query compares as in the range. -/
def blocksBetween (blocks : List DecodedBlock) (fromSlot toSlot : UInt64) : List DecodedBlock :=
  blocks.filter fun d => between fromSlot toSlot d.slot.toInt64

/-- The accounts of all writable locks. -/
def writtenBy (blocks : List DecodedBlock) : List String :=
  blocks.flatMap fun d => d.transactions.flatMap writableAccounts

/-- The largest depth of a block, `0` if there is none. -/
def deepest (blocks : List DecodedBlock) : ℕ := (blocks.map blockDepth).max?.getD 0

/-- A true summary of blocks: its depth is at most theirs, and it shows the accounts with the most writable locks, in
this order and with their numbers of them. -/
structure TrueSummary (blocks : List DecodedBlock) (summary : ContentionSummary) : Prop where
  depth : summary.depth.toNat ≤ deepest blocks
  counts : ∀ e ∈ summary.topConflictingAccounts, e.1 ∈ writtenBy blocks ∧ e.2 = (writtenBy blocks).count e.1
  once : (summary.topConflictingAccounts.map (·.1)).Nodup
  sorted : summary.topConflictingAccounts.Pairwise fun e e' => e'.2 ≤ e.2
  length : summary.topConflictingAccounts.length = min 20 (writtenBy blocks).dedup.length
  heaviest : ∀ account, account ∉ summary.topConflictingAccounts.map (·.1) → ∀ e ∈ summary.topConflictingAccounts,
    (writtenBy blocks).count account ≤ e.2

section Store

variable {blocks : List DecodedBlock} {st : Store} {fromSlot toSlot : UInt64}

theorem HoldsBlocks.latest (h : HoldsBlocks blocks st) : HoldsLatest blocks st where
  live d hd := (h.holds d (latest_eq_self h.slots ▸ hd)).tables
  other := h.other

/-- The writable locks of the rows of a range are those of its blocks. -/
theorem HoldsBlocks.written_perm (h : HoldsBlocks blocks st) :
    (((st.accountLocks.rows.filter fun r => between fromSlot toSlot r.slot).filter (·.isWritable)).map (·.account)).Perm
      (writtenBy (blocksBetween blocks fromSlot toSlot)) := by
  have hperm : (st.accountLocks.rows.filter fun r => between fromSlot toSlot r.slot).Perm _ :=
    h.latest.rows_perm (·.accountLocks) rfl (fun _ => rfl) (between fromSlot toSlot)
  refine ((hperm.filter (·.isWritable)).map (·.account)).trans (List.Perm.of_eq ?_)
  rw [latest_eq_self h.slots, List.filter_flatMap, List.map_flatMap, writtenBy]
  exact List.flatMap_congr fun d _ => writable_newAccountLocks d

/-! ## Accounts -/

/-- The ranking of the writable locks `locks`. -/
theorem topAccounts_spec (ord : HashMap.IterOrder) (rows : List AccountLocksRow) {written : List String}
    (hperm : ((rows.filter (·.isWritable)).map (·.account)).Perm written) :
    (∀ e ∈ topAccounts ord rows, e.1 ∈ written ∧ e.2 = written.count e.1) ∧
    ((topAccounts ord rows).map (·.1)).Nodup ∧ (topAccounts ord rows).Pairwise (fun e e' => e'.2 ≤ e.2) ∧
    (topAccounts ord rows).length = min 20 written.dedup.length ∧
    ∀ account, account ∉ (topAccounts ord rows).map (·.1) → ∀ e ∈ topAccounts ord rows,
    written.count account ≤ e.2 := by
  rw [topAccounts_eq]
  generalize rows.filter (·.isWritable) = locks at *
  have hkeys : ((ord.iter (HashMap.groupBy (·.account) locks).entries).map (·.1)).Perm written.dedup :=
    ((ord.perm _).map _).trans ((HashMap.keys_groupBy_perm locks).trans hperm.dedup)
  have hcount : ∀ e ∈ ord.iter (HashMap.groupBy (·.account) locks).entries, e.2.length = written.count e.1 := by
    intro e he
    rw [HashMap.length_of_mem_groupBy ((ord.perm _).mem_iff.1 he), hperm.count_eq]
  generalize ord.iter (HashMap.groupBy (·.account) locks).entries = groups at *
  have hsub := TopK.topK_subperm (fun e : Σ _ : String, List AccountLocksRow => e.2.length) 20 groups
  refine ⟨?_, ?_, ?_, ?_, ?_⟩
  · intro e he
    obtain ⟨g, hg, rfl⟩ := List.mem_map.1 he
    have hg := hsub.subset hg
    exact ⟨List.mem_dedup.1 (hkeys.mem_iff.1 (List.mem_map_of_mem hg)), hcount g hg⟩
  · rw [List.map_map]
    obtain ⟨l, hl, hlsub⟩ := hsub
    exact ((hl.map _).nodup_iff).1 ((hkeys.nodup_iff.2 (List.nodup_dedup _)).sublist (hlsub.map _))
  · exact List.pairwise_map.2 (TopK.pairwise_topK _ _ _)
  · rw [List.length_map, TopK.length_topK, ← hkeys.length_eq, List.length_map]
  · intro account hno e he
    obtain ⟨g, hg, rfl⟩ := List.mem_map.1 he
    by_cases hmem : account ∈ written
    · obtain ⟨g', hg', rfl⟩ := List.mem_map.1 (hkeys.mem_iff.2 (List.mem_dedup.2 hmem))
      rw [← hcount g' hg']
      refine TopK.le_of_notMem_topK (w := fun e : Σ _ : String, List AccountLocksRow => e.2.length) hg'
        (fun hin => hno ?_) hg
      exact List.mem_map.2 ⟨_, List.mem_map_of_mem hin, rfl⟩
    · rw [List.count_eq_zero_of_not_mem hmem]
      exact Nat.zero_le _

/-! ## Depth -/

theorem blockDepth_le_deepest {d : DecodedBlock} (hd : d ∈ blocks) : blockDepth d ≤ deepest blocks := by
  have hmem : blockDepth d ∈ blocks.map blockDepth := List.mem_map_of_mem hd
  rw [deepest]
  cases hmax : (blocks.map blockDepth).max? with
  | none =>
    rw [List.max?_eq_none_iff] at hmax
    rw [hmax] at hmem
    cases hmem
  | some m => exact (List.max?_eq_some_iff.1 hmax).2 _ hmem

theorem exists_deepest (hpos : 0 < deepest blocks) : ∃ d ∈ blocks, blockDepth d = deepest blocks := by
  rw [deepest] at hpos ⊢
  cases hmax : (blocks.map blockDepth).max? with
  | none =>
    rw [hmax] at hpos
    exact absurd hpos (Nat.lt_irrefl 0)
  | some m => exact List.mem_map.1 (List.max?_eq_some_iff.1 hmax).1

theorem toInt_ofNat_le (n : ℕ) : (Int32.ofNat n).toInt ≤ n := by
  rcases Nat.lt_or_ge n (2 ^ 31) with hlt | hge
  · exact ((toInt_ofNat_eq_iff n).2 hlt).le
  · have := (Int32.ofNat n).toInt_lt
    omega

/-- The steps of a range are below its depth. -/
theorem HoldsBlocks.step_lt (h : HoldsBlocks blocks st) {r : TransactionsRow} (hr : r ∈ st.transactions.rows)
    (hp : between fromSlot toSlot r.slot = true) {step : Int32} (hstep : r.step = some step) :
    step.toInt < deepest (blocksBetween blocks fromSlot toSlot) := by
  have hslot : r.slot ∈ blocks.map (·.slot.toInt64) := by
    by_contra hno
    have hmem : withoutStep r ∈ (slotTables st r.slot).transactions :=
      List.mem_map_of_mem (List.mem_filter.2 ⟨hr, decide_eq_true rfl⟩)
    rw [h.other _ hno] at hmem
    cases hmem
  obtain ⟨d, hd, hds⟩ := List.mem_map.1 hslot
  have hrange : d ∈ blocksBetween blocks fromSlot toSlot := List.mem_filter.2 ⟨hd, by rwa [← hds] at hp⟩
  rcases (h.holds d hd).steps r hr hds.symm with hnone | ⟨u, hu, _, he⟩
  · rw [hstep] at hnone
    cases hnone
  · obtain rfl : step = Int32.ofNat u.2 := Option.some.inj (hstep.symm.trans he)
    have hle := toInt_ofNat_le u.2
    have hlt := (blockDepth_spec d).1 u hu
    have hdeepest := blockDepth_le_deepest hrange
    omega

/-- Of a block whose steps are all written, the last one is stored. -/
theorem HoldsBlock.exists_last_step {d : DecodedBlock} (h : HoldsBlock st d) (hpos : 0 < blockDepth d)
    (hwritten : ∀ r ∈ st.transactions.rows, r.slot = d.slot.toInt64 → r.step ≠ none) :
    ∃ r ∈ st.transactions.rows, r.slot = d.slot.toInt64 ∧ ∃ n, n + 1 = blockDepth d ∧
      r.step = some (Int32.ofNat n) := by
  obtain ⟨u, hu, hlast⟩ := (blockDepth_spec d).2 hpos
  obtain ⟨r', hr', hsig⟩ := exists_newTransactions hu
  rw [← h.transactions] at hr'
  obtain ⟨r, hr, rfl⟩ := List.mem_map.1 hr'
  obtain ⟨hr, hslot⟩ := List.mem_filter.1 hr
  have hslot := of_decide_eq_true hslot
  obtain ⟨u', hu', hsig', hstep⟩ := (h.steps r hr hslot).resolve_left (hwritten r hr hslot)
  -- signatures are distinct, so the step of the row is the last one
  obtain rfl := List.inj_on_of_nodup_map (scheduledSteps_signatures d ▸ h.signatures_nodup) hu' hu (hsig'.trans hsig)
  exact ⟨r, hr, hslot, _, hlast, hstep⟩

theorem depth_of_summary {ord : HashMap.IterOrder} {summary : ContentionSummary}
    (h : queryContentionSummary ord fromSlot toSlot st = .ok summary) :
    (rangeMaxStep fromSlot toSlot st).getD (-1) + 1 < 2 ^ 31 ∧
      summary.depth = UInt64.ofInt (max ((rangeMaxStep fromSlot toSlot st).getD (-1) + 1) 0) := by
  cases hadd : addInteger ((rangeMaxStep fromSlot toSlot st).getD (-1)) 1 with
  | error e =>
    rw [queryContentionSummary_eq_error hadd] at h
    cases h
  | ok depth =>
    obtain ⟨s, hs, hdepth⟩ := @queryContentionSummary_eq_ok ord _ _ _ _ hadd
    obtain rfl := Except.ok.inj (hs.symm.trans h)
    rw [addInteger] at hadd
    split at hadd
    · rename_i hrange
      cases hadd
      exact ⟨hrange.2, hdepth⟩
    · cases hadd

/-- The depth that a summary shows. -/
theorem toNat_depth_of_summary {ord : HashMap.IterOrder} {summary : ContentionSummary}
    (h : queryContentionSummary ord fromSlot toSlot st = .ok summary) :
    (summary.depth.toNat : ℤ) = max ((rangeMaxStep fromSlot toSlot st).getD (-1) + 1) 0 := by
  obtain ⟨hlt, hdepth⟩ := depth_of_summary h
  have := Netting.toNat_ofInt (n := max ((rangeMaxStep fromSlot toSlot st).getD (-1) + 1) 0) (by omega) (by omega)
  rw [hdepth]
  omega

/-- Every summary is a true one. -/
theorem HoldsBlocks.trueSummary (h : HoldsBlocks blocks st) {ord : HashMap.IterOrder} {summary : ContentionSummary}
    (hs : queryContentionSummary ord fromSlot toSlot st = .ok summary) :
    TrueSummary (blocksBetween blocks fromSlot toSlot) summary := by
  obtain ⟨hcounts, honce, hsorted, hlength, hheaviest⟩ := topAccounts_spec ord _ h.written_perm
  rw [← queryContentionSummary_top hs] at hcounts honce hsorted hlength hheaviest
  refine ⟨?_, hcounts, honce, hsorted, hlength, hheaviest⟩
  have hdepth := toNat_depth_of_summary hs
  cases hmax : rangeMaxStep fromSlot toSlot st with
  | none =>
    rw [hmax, Option.getD_none] at hdepth
    omega
  | some m =>
    obtain ⟨hm, _⟩ := List.max?_eq_some_iff.1 hmax
    obtain ⟨r, hr, hvalue⟩ := List.mem_filterMap.1 hm
    obtain ⟨hr, hp⟩ := List.mem_filter.1 hr
    obtain ⟨step, hstep, rfl⟩ := Option.map_eq_some_iff.1 hvalue
    have hlt := h.step_lt hr hp hstep
    rw [hmax, Option.getD_some] at hdepth
    omega

/-- Once all steps of the range are written, the depth is that of the deepest block. -/
theorem HoldsBlocks.depth_eq (h : HoldsBlocks blocks st) {ord : HashMap.IterOrder} {summary : ContentionSummary}
    (hs : queryContentionSummary ord fromSlot toSlot st = .ok summary)
    (hwritten : ∀ r ∈ st.transactions.rows, between fromSlot toSlot r.slot = true → r.step ≠ none)
    (hdepth : deepest (blocksBetween blocks fromSlot toSlot) < 2 ^ 31) :
    summary.depth.toNat = deepest (blocksBetween blocks fromSlot toSlot) := by
  refine le_antisymm (h.trueSummary hs).depth ?_
  rcases Nat.eq_zero_or_pos (deepest (blocksBetween blocks fromSlot toSlot)) with hzero | hpos
  · rw [hzero]
    exact Nat.zero_le _
  · obtain ⟨d, hd, hdeepest⟩ := exists_deepest hpos
    obtain ⟨hd, hp⟩ := List.mem_filter.1 hd
    obtain ⟨r, hr, hslot, n, hn, hstep⟩ := (h.holds d hd).exists_last_step (hdeepest ▸ hpos) fun r hr hslot =>
      hwritten r hr (by rw [hslot]; exact hp)
    have hmem : (n : ℤ) ∈ (st.transactions.rows.filter fun r => between fromSlot toSlot r.slot).filterMap
        fun r => r.step.map Int32.toInt := by
      refine List.mem_filterMap.2 ⟨r, List.mem_filter.2 ⟨hr, by rw [hslot]; exact hp⟩, ?_⟩
      rw [hstep, Option.map_some, (toInt_ofNat_eq_iff n).2 (by omega)]
    have hshown := toNat_depth_of_summary hs
    cases hmax : rangeMaxStep fromSlot toSlot st with
    | none =>
      rw [rangeMaxStep, maxStep, List.max?_eq_none_iff] at hmax
      rw [hmax] at hmem
      cases hmem
    | some m =>
      have hle := (List.max?_eq_some_iff.1 hmax).2 _ hmem
      rw [hmax, Option.getD_some] at hshown
      omega

end Store

/-! ## What clients are told -/

/-- A block that the server of some session has answered. -/
def FetchedBy (P : Setting → Prop) (d : DecodedBlock) : Prop :=
  ∃ S, P S ∧ d ∈ ingestedBlocks (S.args.outcomes S.answers)

/-- The store after the purchase in slot 5. -/
theorem exists_boughtSession : ∃ st, Transition.Reachable (sessions (fun _ => True) .empty) st ∧
    st.transactions.rows.length = 1 ∧ queryContentionSummary .stored 5 5 st = .ok ⟨1, []⟩ := by
  obtain ⟨s, _, hs, _, _, hconn⟩ := @exists_one (fun slot => (buyBlock slot).transactions) rfl _ candles_boughtConn
  have hserved := @served_of_ingest (buySetting 1) plainExternals _ _ written_empty hs
  refine ⟨s.conn.store, .step (.init rfl) ⟨_, _, _, trivial, hserved, rfl⟩, ?_⟩
  rw [hconn]
  decide +kernel

end Tenso.Cli
