import Tenso.Cli.Latest
import Tenso.Lib.TopK

/-!
# The ranking of accounts

The contention summary ranks accounts by their writable locks in a slot range and shows the first 20 of them as the
conflicting accounts. An account can have writable locks without a conflict, when no other transaction of its blocks
locks it. So the ranking shows contended accounts only if every written account of the range is contended or behind 20
accounts with more writable locks (`ranksContended_iff`); one transaction with one writable lock breaks it
(`ranking_uncontended`).
-/

namespace Tenso.Cli

open Ingest (DecodedBlock DecodedTransaction)
open Storage

/-! ## Contended and written accounts -/

/-- The latest blocks of a slot range. -/
def rangeBlocks (blocks : List DecodedBlock) (fromSlot toSlot : UInt64) : List DecodedBlock :=
  (latest blocks).filter fun d => fromSlot ≤ d.slot ∧ d.slot ≤ toSlot

/-- Two transactions conflict on an account: both lock it, at least one of them as writable. -/
def ConflictOn (account : String) (t u : DecodedTransaction) : Prop :=
  ∃ l ∈ t.locks, l.account = account ∧ ∃ m ∈ u.locks, m.account = account ∧ (l.isWritable = true ∨ m.isWritable = true)

/-- Two transactions of one block in the range conflict on the account. -/
def Contended (blocks : List DecodedBlock) (fromSlot toSlot : UInt64) (account : String) : Prop :=
  ∃ d ∈ rangeBlocks blocks fromSlot toSlot, ∃ (i j : ℕ) (t u : DecodedTransaction), i < j ∧
    d.transactions[i]? = some t ∧ d.transactions[j]? = some u ∧ ConflictOn account t u

/-- The accounts of the writable locks of a transaction. -/
def writableAccounts (t : DecodedTransaction) : List String := (t.locks.filter (·.isWritable)).map (·.account)

/-- The accounts of all writable locks of a range. -/
def writtenAccounts (blocks : List DecodedBlock) (fromSlot toSlot : UInt64) : List String :=
  (rangeBlocks blocks fromSlot toSlot).flatMap fun d => d.transactions.flatMap writableAccounts

/-- The number of accounts with more writable locks in the range. -/
def accountsAbove (blocks : List DecodedBlock) (fromSlot toSlot : UInt64) (account : String) : ℕ :=
  let written := writtenAccounts blocks fromSlot toSlot
  written.dedup.countP fun a => written.count account < written.count a

/-- The ranking reports contended accounts: it shows no other account, and none is displaced by another one. -/
structure RanksContended (blocks : List DecodedBlock) (fromSlot toSlot : UInt64) (top : List (String × ℕ)) : Prop where
  contended : ∀ e ∈ top, Contended blocks fromSlot toSlot e.1
  notDisplaced : ∀ a, Contended blocks fromSlot toSlot a → a ∉ top.map (·.1) → ∀ e ∈ top,
    Contended blocks fromSlot toSlot e.1

/-! ## What the query counts -/

/-- The writable locks of a block's rows are those of its transactions. -/
theorem writable_newAccountLocks (d : DecodedBlock) :
    ((newAccountLocks (parseBlock d).slotRow).filter (·.isWritable)).map (·.account) =
      d.transactions.flatMap writableAccounts := by
  simp only [newAccountLocks, ParsedBlock.slotRow, parseBlock, List.map_flatMap, List.filter_flatMap, List.map_map,
    List.filter_map]
  rfl

/-- The ranking as a choice of groups. -/
theorem topAccounts_eq (ord : HashMap.IterOrder) (rows : List AccountLocksRow) :
    topAccounts ord rows =
      (TopK.topK (fun e => e.2.length) 20
        (ord.iter (HashMap.groupBy (·.account) (rows.filter (·.isWritable))).entries)).map
          fun e => (e.1, e.2.length) := by
  rw [← TopK.topK_map (w := Prod.snd)]
  rfl

section Range

variable {blocks : List DecodedBlock} {st : Store} {fromSlot toSlot : UInt64}

/-- The writable locks that the query sees are those of the latest blocks in the range. -/
theorem HoldsLatest.written_perm (h : HoldsLatest blocks st) (hfrom : fromSlot.toNat < 2 ^ 63)
    (hto : toSlot.toNat < 2 ^ 63) :
    (((st.accountLocks.rows.filter fun r => between fromSlot toSlot r.slot).filter (·.isWritable)).map (·.account)).Perm
      (writtenAccounts blocks fromSlot toSlot) := by
  have hrange : ((latest blocks).filter fun d => between fromSlot toSlot d.slot.toInt64) =
      rangeBlocks blocks fromSlot toSlot := by
    apply List.filter_congr
    intro d _
    rw [Bool.eq_iff_iff, between_iff hfrom hto, decide_eq_true_iff]
  have hperm : (st.accountLocks.rows.filter fun r => between fromSlot toSlot r.slot).Perm _ :=
    h.rows_perm (·.accountLocks) rfl (fun _ => rfl) (between fromSlot toSlot)
  refine ((hperm.filter (·.isWritable)).map (·.account)).trans (List.Perm.of_eq ?_)
  rw [hrange, List.filter_flatMap, List.map_flatMap, writtenAccounts]
  exact List.flatMap_congr fun d _ => writable_newAccountLocks d

/-- An account can be shown exactly when it is written and fewer than 20 accounts have more writable locks. -/
theorem HoldsLatest.exists_topAccounts_iff (h : HoldsLatest blocks st) (hfrom : fromSlot.toNat < 2 ^ 63)
    (hto : toSlot.toNat < 2 ^ 63) {account : String} :
    (∃ ord, ∃ e ∈ topAccounts ord (st.accountLocks.rows.filter fun r => between fromSlot toSlot r.slot),
      e.1 = account) ↔
      account ∈ writtenAccounts blocks fromSlot toSlot ∧ accountsAbove blocks fromSlot toSlot account < 20 := by
  have hperm := h.written_perm hfrom hto
  simp only [topAccounts_eq, List.mem_map]
  generalize (st.accountLocks.rows.filter fun r => between fromSlot toSlot r.slot).filter (·.isWritable) = locks at *
  -- a group has as many locks as its account
  have hlength : ∀ e ∈ (HashMap.groupBy (·.account) locks).entries,
      e.2.length = (writtenAccounts blocks fromSlot toSlot).count e.1 := fun e he => by
    rw [HashMap.length_of_mem_groupBy he, hperm.count_eq]
  have habove : ∀ e ∈ (HashMap.groupBy (·.account) locks).entries,
      TopK.heavier (fun e => e.2.length) e.2.length (HashMap.groupBy (·.account) locks).entries =
        accountsAbove blocks fromSlot toSlot e.1 := by
    intro e he
    have hkeys : ((HashMap.groupBy (·.account) locks).entries.map (·.1)).Perm _ :=
      (HashMap.keys_groupBy_perm locks).trans hperm.dedup
    rw [accountsAbove, ← hkeys.countP_eq, List.countP_map, TopK.heavier]
    apply List.countP_congr
    intro e' he'
    simp only [Function.comp_apply, decide_eq_true_eq, hlength e he, hlength e' he']
  constructor
  · rintro ⟨ord, _, ⟨e, he, rfl⟩, rfl⟩
    have hmem : e ∈ (HashMap.groupBy (·.account) locks).entries :=
      (ord.perm _).mem_iff.1 (TopK.mem_of_mem_topK he)
    obtain ⟨⟨x, hx, hkey⟩, _⟩ := HashMap.mem_entries_groupBy.1 hmem
    refine ⟨hperm.mem_iff.1 (List.mem_map.2 ⟨x, hx, hkey⟩), ?_⟩
    rw [← habove e hmem]
    exact (TopK.exists_order_mem_topK_iff hmem).1 ⟨ord, he⟩
  · rintro ⟨hmem, hlt⟩
    obtain ⟨x, hx, rfl⟩ := List.mem_map.1 (hperm.mem_iff.2 hmem)
    have hentry : (⟨x.account, locks.filter (·.account = x.account)⟩ : Σ _ : String, List AccountLocksRow) ∈
        (HashMap.groupBy (·.account) locks).entries := HashMap.mem_entries_groupBy.2 ⟨⟨x, hx, rfl⟩, rfl⟩
    obtain ⟨ord, he⟩ := (TopK.exists_order_mem_topK_iff hentry).2 (by rwa [habove _ hentry])
    exact ⟨ord, _, ⟨_, he, rfl⟩, rfl⟩

end Range

/-- **When the ranking reports contended accounts.** After a run of accepted flushes on an empty store, the summary of
a slot range below `2 ^ 63` shows contended accounts only, in whatever order equal counts come, if and only if every
account with a writable lock in the range is contended or has 20 accounts above it; if a block of the range has
`2 ^ 31` steps, there is no summary. -/
theorem ranksContended_iff (f : Faults) (batches : List (List DecodedBlock)) (n : ℕ) (c : Conn Store)
    (hrun : flushAll f batches ⟨.empty, none, n⟩ = (.ok (), c)) (fromSlot toSlot : UInt64)
    (hfrom : fromSlot.toNat < 2 ^ 63) (hto : toSlot.toNat < 2 ^ 63) :
    (∀ ord s, queryContentionSummary ord fromSlot toSlot c.store = .ok s →
      RanksContended batches.flatten fromSlot toSlot s.topConflictingAccounts) ↔
    2 ^ 31 ≤ maxDepth batches.flatten fromSlot toSlot ∨
      ∀ a ∈ writtenAccounts batches.flatten fromSlot toSlot,
        Contended batches.flatten fromSlot toSlot a ∨ 20 ≤ accountsAbove batches.flatten fromSlot toSlot a := by
  have htracks := flushAll_tracks tracks_empty hrun
  rw [List.nil_append] at htracks
  have hshown (a : String) : _ ↔ a ∈ writtenAccounts batches.flatten fromSlot toSlot ∧ _ :=
    (flushAll_tables hrun).exists_topAccounts_iff hfrom hto
  by_cases hdepth : 2 ^ 31 ≤ maxDepth batches.flatten fromSlot toSlot
  · refine ⟨fun _ => Or.inl hdepth, fun _ ord s hs => ?_⟩
    have herr := htracks.maxStep_overflow hfrom hto hdepth
    rw [queryContentionSummary_eq_error (e := .outOfRange) (by rw [herr]; rfl)] at hs
    cases hs
  · constructor
    · intro hranks
      refine Or.inr fun a ha => ?_
      by_contra hno
      rw [not_or, Nat.not_le] at hno
      obtain ⟨ord, e, he, rfl⟩ := (hshown a).2 ⟨ha, hno.2⟩
      -- the query succeeds, so it shows the account
      have hmax := htracks.maxStep_eq hfrom hto (Nat.lt_of_not_le hdepth)
      have hadd : addInteger ((rangeMaxStep fromSlot toSlot c.store).getD (-1)) 1 =
          .ok (maxDepth batches.flatten fromSlot toSlot) := by
        rw [addInteger, hmax, if_pos (by omega)]
      obtain ⟨s, hs, _⟩ := @queryContentionSummary_eq_ok ord _ _ _ _ hadd
      exact hno.1 ((hranks ord s hs).contended e (by rwa [queryContentionSummary_top hs]))
    · rintro hcond ord s hs
      have hall : ∀ e ∈ s.topConflictingAccounts, Contended batches.flatten fromSlot toSlot e.1 := by
        intro e he
        rw [queryContentionSummary_top hs] at he
        obtain ⟨hmem, hlt⟩ := (hshown e.1).1 ⟨ord, e, he, rfl⟩
        exact (hcond.resolve_left hdepth e.1 hmem).resolve_right (by omega)
      exact ⟨hall, fun _ _ _ => hall⟩

/-- A block whose second transaction reads what the first one writes. -/
def readBlock : DecodedBlock :=
  { slot := 2, blockTime := none,
    transactions := [⟨"writer", 2, none, [], [⟨"vault", true⟩], [], false⟩,
      ⟨"reader", 2, none, [], [⟨"vault", false⟩], [], false⟩] }

/-- Two writers of one account, a writer and a reader of another one: the ranking is right. -/
theorem ranksContended_iff_example : ∃ c s,
    flushAll (fun _ => false) [[chainBlock 2], [readBlock]] ⟨.empty, none, 0⟩ = (.ok (), c) ∧
    queryContentionSummary .stored 1 2 c.store = .ok s ∧
    s.topConflictingAccounts = [("account", 2), ("vault", 1)] ∧
    RanksContended [chainBlock 2, readBlock] 1 2 s.topConflictingAccounts := by
  refine ⟨_, _, rfl, rfl, rfl,
    (ranksContended_iff (fun _ => false) [[chainBlock 2], [readBlock]] 0 _ rfl 1 2 (by decide)
    (by decide)).2 (Or.inr ?_) .stored _ rfl⟩
  intro a ha
  have hw : writtenAccounts [[chainBlock 2], [readBlock]].flatten 1 2 = ["account", "account", "vault"] := by decide
  have ha' : a = "account" ∨ a = "vault" := by
    rw [hw] at ha
    simpa using ha
  rcases ha' with rfl | rfl
  · exact Or.inl ⟨chainBlock 2, by decide, 0, 1, chainTx 0, chainTx 1, Nat.zero_lt_one, rfl, rfl,
      _, List.mem_singleton_self _, rfl, _, List.mem_singleton_self _, rfl, Or.inl rfl⟩
  · exact Or.inl ⟨readBlock, by decide, 0, 1, _, _, Nat.zero_lt_one, rfl, rfl,
      _, List.mem_singleton_self _, rfl, _, List.mem_singleton_self _, rfl, Or.inl rfl⟩

/-- One transaction with one writable lock: the ranking shows an account without a conflict. -/
theorem ranking_uncontended : ∃ c s, flushAll (fun _ => false) [[chainBlock 1]] ⟨.empty, none, 0⟩ = (.ok (), c) ∧
    queryContentionSummary .stored 1 1 c.store = .ok s ∧ s.topConflictingAccounts = [("account", 1)] ∧
    ¬RanksContended [chainBlock 1] 1 1 s.topConflictingAccounts := by
  refine ⟨_, _, rfl, rfl, rfl, fun h => ?_⟩
  obtain ⟨d, hd, i, j, t, u, hij, _, hu, _⟩ := h.contended ("account", 1) (List.mem_singleton_self _)
  have hd' : d = chainBlock 1 := List.mem_singleton.1 hd
  subst hd'
  have hj : j < (chainBlock 1).transactions.length := (List.getElem?_eq_some_iff.1 hu).1
  have hlen : (chainBlock 1).transactions.length = 1 := rfl
  omega

end Tenso.Cli
