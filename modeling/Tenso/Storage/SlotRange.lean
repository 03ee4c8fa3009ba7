import Tenso.Storage.Query
import Tenso.Storage.WriteRuns

/-!
# Slot ranges

The range queries take any two `u64` slots and compare them with the stored slots as `BIGINT`, where the slots from
`2 ^ 63` on are negative. So a range with both ends on one side of `2 ^ 63` selects the slots between its ends, and a
range across `2 ^ 63` selects none of them (`crossing_cases`); a reversed range across `2 ^ 63`, which should be
empty, selects the slots outside of its gap.

In every run of writes the two queries are exact on the ranges of the first kind, and on the others as long as no row
that they read is misplaced (`rangeQueries_exact_iff`). The range of all slots is one of the others (`allSlots_misses`).
-/

namespace Tenso.Storage

/-! ## Readable rows -/

/-- All token balance changes can be read. -/
def AllReadable (st : Store) : Prop := ∀ r ∈ st.tokenBalanceChanges.rows, Readable r

/-- A batch keeps the rows readable: it brings only rows that fit their columns. -/
theorem ReplacesAll.readable : ∀ {rows : List SlotBatchRow} {st st' : Store}, ReplacesAll rows st st' →
    AllReadable st → AllReadable st'
  | [], st, st', h, hread => by
    rw [(h : st' = st)]
    exact hread
  | row :: rows, st, st', ⟨t, ht, h⟩, hread => by
    refine h.readable fun r hr => ?_
    rw [ht.tokenBalanceChanges, Groups.replaceGroup, List.mem_append, List.mem_filter] at hr
    rcases hr with ⟨hr, _⟩ | hr
    · exact hread r hr
    · exact newTokenBalanceChanges_readable hr

/-- A run of writes leaves readable rows only. -/
theorem repositoryRuns_readable {c : Conn Store} (h : Transition.Reachable repositoryRuns c) : AllReadable c.store := by
  have hkept : KeptByWrites (fun _ => True) AllReadable := by
    refine ⟨fun _ hst hread => hst.readable hread, fun hst hread => ?_, id, id⟩
    cases hst
    exact hread
  exact (hkept.reachable nofun h).2

/-! ## The slots of a range -/

/-- A stored slot is between the ends of a range. -/
def slotIn (fromSlot toSlot : UInt64) (slot : Int64) : Bool := fromSlot ≤ slot.toUInt64 ∧ slot.toUInt64 ≤ toSlot

/-- The ends of a range are on the same side of `2 ^ 63`. -/
def SameSide (fromSlot toSlot : UInt64) : Prop := fromSlot.toNat < 2 ^ 63 ↔ toSlot.toNat < 2 ^ 63

instance (fromSlot toSlot : UInt64) : Decidable (SameSide fromSlot toSlot) := inferInstanceAs (Decidable (_ ↔ _))

/-- A stored slot that a range across `2 ^ 63` misplaces: one between its ends or, if these are reversed, one outside of
the gap. -/
def misplaced (fromSlot toSlot : UInt64) (slot : Int64) : Bool :=
  if fromSlot ≤ toSlot then fromSlot ≤ slot.toUInt64 ∧ slot.toUInt64 ≤ toSlot
  else fromSlot ≤ slot.toUInt64 ∨ slot.toUInt64 ≤ toSlot

section Range

variable {fromSlot toSlot : UInt64}

theorem sameSide_iff : SameSide fromSlot toSlot ↔ CutOrder.SameHalf negativeSlots fromSlot.toNat toSlot.toNat := by
  simp only [SameSide, CutOrder.SameHalf, mem_negativeSlots]
  omega

theorem between_iff_mem (slot : Int64) : between fromSlot toSlot slot = true ↔
    slot.toUInt64.toNat ∈ CutOrder.cutIcc negativeSlots fromSlot.toNat toSlot.toNat := by
  rw [← between_iff_mem_cutIcc, Int64.toInt64_toUInt64]

theorem slotIn_iff_mem (slot : Int64) :
    slotIn fromSlot toSlot slot = true ↔ slot.toUInt64.toNat ∈ Set.Icc fromSlot.toNat toSlot.toNat := by
  rw [slotIn, decide_eq_true_iff, Set.mem_Icc, UInt64.le_iff_toNat_le, UInt64.le_iff_toNat_le]

theorem misplaced_iff_mem (slot : Int64) :
    misplaced fromSlot toSlot slot = true ↔ slot.toUInt64.toNat ∈ CutOrder.misplaced fromSlot.toNat toSlot.toNat := by
  rw [misplaced, CutOrder.misplaced, Set.mem_ofPred_eq]
  by_cases hle : fromSlot ≤ toSlot
  · rw [if_pos hle, if_pos (UInt64.le_iff_toNat_le.1 hle), decide_eq_true_iff, UInt64.le_iff_toNat_le,
      UInt64.le_iff_toNat_le]
  · rw [if_neg hle, if_neg fun h => hle (UInt64.le_iff_toNat_le.2 h), decide_eq_true_iff, UInt64.le_iff_toNat_le,
      UInt64.le_iff_toNat_le]

/-- Ends on the same side: the column selects the slots between the ends. -/
theorem between_eq_slotIn (h : SameSide fromSlot toSlot) : between fromSlot toSlot = slotIn fromSlot toSlot := by
  funext slot
  rw [Bool.eq_iff_iff, between_iff_mem, slotIn_iff_mem, CutOrder.cutIcc_eq_Icc (sameSide_iff.1 h)]

/-- Ends on different sides: no slot is selected and the misplaced slots should be, or the other way round. -/
theorem crossing_cases (h : ¬SameSide fromSlot toSlot) :
    ((∀ slot, between fromSlot toSlot slot = false) ∧ slotIn fromSlot toSlot = misplaced fromSlot toSlot) ∨
    (between fromSlot toSlot = misplaced fromSlot toSlot ∧ ∀ slot, slotIn fromSlot toSlot slot = false) := by
  rcases CutOrder.cut_cases (mt sameSide_iff.2 h) with ⟨hcut, hIcc⟩ | ⟨hcut, hIcc⟩
  · refine Or.inl ⟨fun slot => ?_, funext fun slot => ?_⟩
    · rw [← Bool.not_eq_true, between_iff_mem, hcut]
      exact Set.notMem_empty _
    · rw [Bool.eq_iff_iff, slotIn_iff_mem, misplaced_iff_mem, hIcc]
  · refine Or.inr ⟨funext fun slot => ?_, fun slot => ?_⟩
    · rw [Bool.eq_iff_iff, between_iff_mem, misplaced_iff_mem, hcut]
    · rw [← Bool.not_eq_true, slotIn_iff_mem, hIcc]
      exact Set.notMem_empty _

/-- Of the rows that a range across `2 ^ 63` selects and those that it should select, one list is empty, and the other
one is what is misplaced. -/
theorem filter_crossing (h : ¬SameSide fromSlot toSlot) {ρ : Type} (slotOf : ρ → Int64) (rows : List ρ) :
    ((rows.filter fun r => between fromSlot toSlot (slotOf r)) = [] ∧
      (rows.filter fun r => slotIn fromSlot toSlot (slotOf r)) = rows.filter fun r =>
      misplaced fromSlot toSlot (slotOf r)) ∨
    ((rows.filter fun r => between fromSlot toSlot (slotOf r)) =
        (rows.filter fun r => misplaced fromSlot toSlot (slotOf r)) ∧
      (rows.filter fun r => slotIn fromSlot toSlot (slotOf r)) = []) := by
  rcases crossing_cases h with ⟨hno, heq⟩ | ⟨heq, hno⟩
  · simp [hno, heq]
  · simp [hno, heq]

end Range

/-! ## What a summary aggregates -/

/-- The summary of some transactions and locks. -/
def summaryOf (ord : HashMap.IterOrder) (transactions : List TransactionsRow) (locks : List AccountLocksRow) :
    Except DbError ContentionSummary := do
  let depth ← addInteger ((maxStep transactions).getD (-1)) 1
  return { depth := UInt64.ofInt (max depth 0), topConflictingAccounts := topAccounts ord locks }

theorem queryContentionSummary_eq_summaryOf (ord : HashMap.IterOrder) (fromSlot toSlot : UInt64) (st : Store) :
    queryContentionSummary ord fromSlot toSlot st =
      summaryOf ord (st.transactions.rows.filter fun r => between fromSlot toSlot r.slot)
        (st.accountLocks.rows.filter fun r => between fromSlot toSlot r.slot) := rfl

/-- A transaction with a step, `0` or more. -/
def TransactionsRow.hasStep (r : TransactionsRow) : Bool := r.step.any (0 ≤ ·)

/-- The depth is `0` when no transaction has a step. -/
theorem maxStep_le_iff {rows : List TransactionsRow} : (maxStep rows).getD (-1) ≤ -1 ↔
    ∀ r ∈ rows, r.hasStep = false := by
  have hstep (r : TransactionsRow) : r.hasStep = false ↔ ∀ n ∈ r.step.map Int32.toInt, n ≤ -1 := by
    have hzero : (0 : Int32).toInt = 0 := rfl
    cases h : r.step with
    | none => simp [TransactionsRow.hasStep, h]
    | some n =>
      simp only [TransactionsRow.hasStep, h, Option.any_some, decide_eq_false_iff_not, Int32.le_iff_toInt_le, hzero,
        Option.map_some, Option.mem_some_iff, forall_eq']
      omega
  have hall : (∀ r ∈ rows, r.hasStep = false) ↔ ∀ n ∈ rows.filterMap fun r => r.step.map Int32.toInt, n ≤ -1 := by
    simp only [hstep, List.mem_filterMap, Option.mem_def]
    exact ⟨fun h n ⟨r, hr, he⟩ => h r hr n he, fun h r hr n he => h n ⟨r, hr, he⟩⟩
  rw [hall, maxStep]
  generalize rows.filterMap (fun r => r.step.map Int32.toInt) = steps
  cases hmax : steps.max? with
  | none =>
    rw [List.max?_eq_none_iff.1 hmax]
    simp
  | some m => exact List.max?_le_iff hmax

/-- No account is shown when no lock is writable. -/
theorem topAccounts_eq_nil_iff {ord : HashMap.IterOrder} {rows : List AccountLocksRow} :
    topAccounts ord rows = [] ↔ ∀ l ∈ rows, l.isWritable = false := by
  constructor
  · intro h l hl
    by_contra hw
    rw [Bool.not_eq_false] at hw
    have hentry : (⟨l.account, (rows.filter (·.isWritable)).filter (·.account = l.account)⟩ :
        Σ _ : String, List AccountLocksRow) ∈ (HashMap.groupBy (·.account) (rows.filter (·.isWritable))).entries :=
      HashMap.mem_entries_groupBy.2 ⟨⟨l, List.mem_filter.2 ⟨hl, hw⟩, rfl⟩, rfl⟩
    have hlen := congrArg List.length h
    simp only [topAccounts, List.length_take, List.length_insertionSort, List.length_map, (ord.perm _).length_eq,
      List.length_nil] at hlen
    have hpos := List.length_pos_of_mem hentry
    omega
  · intro h
    have hfilter : rows.filter (·.isWritable) = [] := List.filter_eq_nil_iff.2 fun l hl => by simp [h l hl]
    have hentries : ord.iter (HashMap.groupBy AccountLocksRow.account []).entries = [] := (ord.perm _).eq_nil
    rw [topAccounts, hfilter, hentries]
    rfl

theorem le_maxStep (rows : List TransactionsRow) :
    -2 ^ 31 ≤ (maxStep rows).getD (-1) ∧ (maxStep rows).getD (-1) < 2 ^ 31 := by
  cases hmax : maxStep rows with
  | none => decide
  | some m =>
    obtain ⟨r, _, hr⟩ := List.mem_filterMap.1 (List.max?_mem hmax)
    obtain ⟨n, _, rfl⟩ := Option.map_eq_some_iff.1 hr
    exact ⟨Int32.le_toInt n, Int32.toInt_lt n⟩

/-- The depth fits, unless the largest step is the largest `INTEGER`. -/
theorem summaryOf_eq (ord : HashMap.IterOrder) (transactions : List TransactionsRow) (locks : List AccountLocksRow) :
    summaryOf ord transactions locks = if (maxStep transactions).getD (-1) + 1 < 2 ^ 31 then
      .ok ⟨UInt64.ofInt (max ((maxStep transactions).getD (-1) + 1) 0), topAccounts ord locks⟩
      else .error .outOfRange := by
  obtain ⟨hlo, _⟩ := le_maxStep transactions
  simp only [summaryOf, addInteger]
  generalize (maxStep transactions).getD (-1) = m at hlo
  by_cases hfit : m + 1 < 2 ^ 31
  · rw [if_pos ⟨by omega, hfit⟩, if_pos hfit]
    rfl
  · rw [if_neg fun h => hfit h.2, if_neg hfit]
    rfl

/-- Nothing to aggregate: the summary is that of no rows exactly when no transaction has a step and no lock is
writable. -/
theorem summaryOf_eq_empty_iff {ord : HashMap.IterOrder} {transactions : List TransactionsRow}
    {locks : List AccountLocksRow} : summaryOf ord transactions locks = summaryOf ord [] [] ↔
      (∀ r ∈ transactions, r.hasStep = false) ∧ ∀ l ∈ locks, l.isWritable = false := by
  have hempty : summaryOf ord [] [] = .ok ⟨0, []⟩ := by
    have htop : topAccounts ord [] = [] := topAccounts_eq_nil_iff.2 nofun
    rw [← htop]
    rfl
  obtain ⟨hlo, hhi⟩ := le_maxStep transactions
  rw [hempty, summaryOf_eq, ← maxStep_le_iff, ← @topAccounts_eq_nil_iff ord]
  generalize (maxStep transactions).getD (-1) = m at hlo hhi
  by_cases hfit : m + 1 < 2 ^ 31
  · have hdepth : UInt64.ofInt (max (m + 1) 0) = 0 ↔ m ≤ -1 := by
      have hnat := Netting.toNat_ofInt (n := max (m + 1) 0) (by omega) (by omega)
      rw [← UInt64.toNat_inj, UInt64.toNat_zero]
      omega
    rw [if_pos hfit, Except.ok.injEq, ContentionSummary.mk.injEq, hdepth]
  · rw [if_neg hfit]
    refine ⟨nofun, fun h => ?_⟩
    omega

/-! ## Exact queries -/

/-- The query returns exactly the token balance changes of the slots of the range. -/
def ExactChanges (ord : HashMap.IterOrder) (fromSlot toSlot : UInt64) (st : Store) : Prop :=
  ∃ rows : List TokenBalanceChangesRow,
    rows.Perm (st.tokenBalanceChanges.rows.filter fun r => slotIn fromSlot toSlot r.slot) ∧
    queryBalanceChangesForRange ord fromSlot toSlot st = .ok (rows.map handedOut)

/-- The query aggregates exactly the transactions and locks of the slots of the range. -/
def ExactSummary (ord : HashMap.IterOrder) (fromSlot toSlot : UInt64) (st : Store) : Prop :=
  queryContentionSummary ord fromSlot toSlot st =
    summaryOf ord (st.transactions.rows.filter fun r => slotIn fromSlot toSlot r.slot)
      (st.accountLocks.rows.filter fun r => slotIn fromSlot toSlot r.slot)

/-- No row of the token balance changes is misplaced. -/
def ChangesInPlace (fromSlot toSlot : UInt64) (st : Store) : Prop :=
  ∀ r ∈ st.tokenBalanceChanges.rows, misplaced fromSlot toSlot r.slot = false

/-- No transaction with a step and no writable lock is misplaced. -/
def ContentionInPlace (fromSlot toSlot : UInt64) (st : Store) : Prop :=
  (∀ r ∈ st.transactions.rows, r.hasStep = true → misplaced fromSlot toSlot r.slot = false) ∧
  ∀ l ∈ st.accountLocks.rows, l.isWritable = true → misplaced fromSlot toSlot l.slot = false

section Exact

variable {ord : HashMap.IterOrder} {fromSlot toSlot : UInt64} {st : Store}

theorem exactChanges_of_sameSide (hread : AllReadable st) (h : SameSide fromSlot toSlot) :
    ExactChanges ord fromSlot toSlot st := by
  rw [ExactChanges, ← between_eq_slotIn h]
  exact queryBalanceChangesForRange_eq_ok ord fromSlot toSlot fun r hr _ => hread r hr

/-- Across `2 ^ 63` the query is exact when it neither returns nor should return a row. -/
theorem exactChanges_crossing (hread : AllReadable st) (h : ¬SameSide fromSlot toSlot) :
    ExactChanges ord fromSlot toSlot st ↔ ChangesInPlace fromSlot toSlot st := by
  have hplace : ChangesInPlace fromSlot toSlot st ↔
      (st.tokenBalanceChanges.rows.filter fun r => misplaced fromSlot toSlot r.slot) = [] := by
    simp only [ChangesInPlace, List.filter_eq_nil_iff, Bool.not_eq_true]
  obtain ⟨rows, hrows, hquery⟩ :=
    queryBalanceChangesForRange_eq_ok ord fromSlot toSlot fun r (hr : r ∈ st.tokenBalanceChanges.rows) _ => hread r hr
  have hcases := filter_crossing h TokenBalanceChangesRow.slot st.tokenBalanceChanges.rows
  rw [hplace]
  constructor
  · rintro ⟨rows', hrows', hquery'⟩
    have hlength : rows.length = rows'.length := by
      rw [hquery, Except.ok.injEq] at hquery'
      simpa using congrArg List.length hquery'
    -- as many rows are selected as should be, and one of the two numbers is `0`
    rw [hrows.length_eq, hrows'.length_eq] at hlength
    apply List.length_eq_zero_iff.1
    rcases hcases with ⟨hb, hs⟩ | ⟨hb, hs⟩
    · rw [← hs, ← hlength, hb, List.length_nil]
    · rw [← hb, hlength, hs, List.length_nil]
  · intro hmis
    rw [hmis] at hcases
    obtain ⟨hb, hs⟩ := or_self_iff.1 hcases
    refine ⟨rows, ?_, hquery⟩
    rwa [hs, ← hb]

theorem exactSummary_of_sameSide (h : SameSide fromSlot toSlot) : ExactSummary ord fromSlot toSlot st := by
  rw [ExactSummary, ← between_eq_slotIn h]
  rfl

/-- Across `2 ^ 63` the summary is exact when it neither counts nor should count a row. -/
theorem exactSummary_crossing (h : ¬SameSide fromSlot toSlot) :
    ExactSummary ord fromSlot toSlot st ↔ ContentionInPlace fromSlot toSlot st := by
  have hplace : ContentionInPlace fromSlot toSlot st ↔
      (∀ r ∈ st.transactions.rows.filter fun r => misplaced fromSlot toSlot r.slot, r.hasStep = false) ∧
      ∀ l ∈ st.accountLocks.rows.filter fun l => misplaced fromSlot toSlot l.slot, l.isWritable = false := by
    simp only [ContentionInPlace, List.mem_filter, and_imp]
    grind
  rw [ExactSummary, queryContentionSummary_eq_summaryOf, hplace, ← @summaryOf_eq_empty_iff ord]
  rcases crossing_cases h with ⟨hno, heq⟩ | ⟨heq, hno⟩
  · simp only [hno, heq, List.filter_false]
    exact eq_comm
  · simp only [hno, heq, List.filter_false]

/-- The column keeps the slots of a range exactly when its ends are on the same side. -/
theorem between_exact_iff :
    (∀ slot : UInt64, between fromSlot toSlot slot.toInt64 = true ↔ fromSlot ≤ slot ∧ slot ≤ toSlot) ↔
      SameSide fromSlot toSlot := by
  have hslot (slot : UInt64) : slotIn fromSlot toSlot slot.toInt64 = true ↔ fromSlot ≤ slot ∧ slot ≤ toSlot := by
    rw [slotIn, decide_eq_true_iff, UInt64.toUInt64_toInt64]
  simp only [← hslot]
  constructor
  · intro h
    have hleft := h fromSlot
    rw [between_iff_mem, slotIn_iff_mem, UInt64.toUInt64_toInt64] at hleft
    exact sameSide_iff.2 (CutOrder.sameHalf_iff.2 hleft)
  · intro h slot
    rw [between_eq_slotIn h]

end Exact

/-- **When slot-range queries are exact.** In every run of writes and for any two slots, the balance rows that the
query returns are those of the slots of the range if and only if the ends are on the same side of `2 ^ 63` or no
balance row is misplaced; what the summary aggregates is that of the slots of the range if and only if the ends are on
the same side or no transaction with a step and no writable lock is misplaced; and the column keeps every slot in or
out of the range if and only if the ends are on the same side. -/
theorem rangeQueries_exact_iff (c : Conn Store) (h : Transition.Reachable repositoryRuns c) (ord : HashMap.IterOrder)
    (fromSlot toSlot : UInt64) :
    (ExactChanges ord fromSlot toSlot c.store ↔ SameSide fromSlot toSlot ∨ ChangesInPlace fromSlot toSlot c.store) ∧
    (ExactSummary ord fromSlot toSlot c.store ↔ SameSide fromSlot toSlot ∨ ContentionInPlace fromSlot toSlot c.store) ∧
    ((∀ slot : UInt64, between fromSlot toSlot slot.toInt64 = true ↔ fromSlot ≤ slot ∧ slot ≤ toSlot) ↔
      SameSide fromSlot toSlot) := by
  have hread := repositoryRuns_readable h
  by_cases hside : SameSide fromSlot toSlot
  · have hchanges : ExactChanges ord fromSlot toSlot c.store := exactChanges_of_sameSide hread hside
    have hsummary : ExactSummary ord fromSlot toSlot c.store := exactSummary_of_sameSide hside
    exact ⟨⟨fun _ => Or.inl hside, fun _ => hchanges⟩, ⟨fun _ => Or.inl hside, fun _ => hsummary⟩, between_exact_iff⟩
  · rw [exactChanges_crossing hread hside, exactSummary_crossing hside]
    exact ⟨(or_iff_right hside).symm, (or_iff_right hside).symm, between_exact_iff⟩

/-! ## The range of all slots -/

/-- A slot with one transaction, one lock and one balance change. -/
def slotTen : SlotBatchRow :=
  { slot := 10, blockTime := some 1000, transactions := [("sig-a", false, [], some 0)],
    locks := [("sig-a", "account", true)], tokenChanges := [("sig-a", "TOKENMINT", 100, 0, 6)] }

/-- The connection after `slotTen` is written. -/
def afterSlotTen : Conn Store :=
  ((RepositoryWrite.replaceSlotsBatch [slotTen]).run (fun _ => false) ⟨.empty, none, 0⟩).2

theorem reachable_afterSlotTen : Transition.Reachable repositoryRuns afterSlotTen :=
  .step (.init ⟨rfl, rfl⟩) ⟨_, _, trivial, rfl⟩

/-- The queries are exact on a range with both ends below `2 ^ 63`. -/
theorem rangeQueries_exact_iff_example :
    ExactChanges .stored 10 20 afterSlotTen.store ∧ ExactSummary .stored 10 20 afterSlotTen.store := by
  obtain ⟨hchanges, hsummary, _⟩ := rangeQueries_exact_iff afterSlotTen reachable_afterSlotTen .stored 10 20
  have hside : SameSide 10 20 := by decide
  exact ⟨hchanges.2 (Or.inl hside), hsummary.2 (Or.inl hside)⟩

/-- The range of all slots misses a stored slot: the query returns no row and the summary counts none. -/
theorem allSlots_misses : Transition.Reachable repositoryRuns afterSlotTen ∧
    (∃ r ∈ afterSlotTen.store.tokenBalanceChanges.rows, slotIn 0 18446744073709551615 r.slot = true) ∧
    queryBalanceChangesForRange .stored 0 18446744073709551615 afterSlotTen.store = .ok [] ∧
    queryContentionSummary .stored 0 18446744073709551615 afterSlotTen.store = .ok ⟨0, []⟩ ∧
    ¬ExactChanges .stored 0 18446744073709551615 afterSlotTen.store ∧
    ¬ExactSummary .stored 0 18446744073709551615 afterSlotTen.store := by
  have hside : ¬SameSide 0 18446744073709551615 := by decide
  refine ⟨reachable_afterSlotTen, ⟨_, List.mem_singleton_self _, by decide⟩, rfl, rfl, fun h => ?_, fun h => ?_⟩
  · have hplace := (exactChanges_crossing (repositoryRuns_readable reachable_afterSlotTen) hside).1 h
    have := hplace _ (List.mem_singleton_self _)
    revert this
    decide
  · have hplace := (exactSummary_crossing hside).1 h
    have := hplace.2 _ (List.mem_singleton_self _) rfl
    revert this
    decide

end Tenso.Storage
