import Tenso.Cli.Integrity

/-!
# The latest block of each slot

After a run of accepted flushes on an empty store, the rows of each slot are those of its latest block, steps apart
(`flushAll_tables`). So the rows of a range are, up to order, the rows of the latest blocks in it
(`HoldsLatest.rows_perm`).
-/

namespace Tenso.Cli

open Ingest (DecodedBlock)
open Storage

/-- Every slot holds the rows of its latest block, and there are no other rows. -/
structure HoldsLatest (blocks : List DecodedBlock) (st : Store) : Prop where
  live : ∀ d ∈ latest blocks, slotTables st d.slot.toInt64 = blockTables d
  other : ∀ slot, slot ∉ blocks.map (·.slot.toInt64) → slotTables st slot = .none

theorem holdsLatest_empty : HoldsLatest [] .empty := ⟨fun _ h => absurd h List.not_mem_nil, fun _ _ => rfl⟩

/-- Steps do not count as rows. -/
theorem slotTables_withStep {st : Store} {t : Table TransactionsRow.signature} {us : List (String × ℕ)}
    (ht : t.rows = st.transactions.rows.map (withStep us)) :
    slotTables { st with transactions := t } = slotTables st := by
  have hstep : withoutStep ∘ withStep us = withoutStep := rfl
  funext slot
  simp only [slotTables, ht, filter_map_withStep, List.map_map, hstep]

/-- The last block of a slot in a flush decides the rows of the slot. -/
theorem Flushed.tables {pre post : List DecodedBlock} {d : DecodedBlock} {st st' : Store}
    (h : Flushed (pre ++ d :: post) st st') (hlast : d.slot ∉ post.map (·.slot)) :
    slotTables st' d.slot.toInt64 = blockTables d := by
  obtain ⟨st₁, hst₁, hrows, heq⟩ := h.replaced
  rw [heq, slotTables_withStep hrows]
  exact slotTables_holds (holds_live hst₁ hlast)

/-- An accepted flush makes its blocks the latest ones. -/
theorem HoldsLatest.flushed {done blocks : List DecodedBlock} {st st' : Store} (h : HoldsLatest done st)
    (hf : Flushed blocks st st') : HoldsLatest (done ++ blocks) st' := by
  constructor
  · intro d hd
    rcases mem_latest_append hd with ⟨pre, post, rfl, hlast⟩ | ⟨hd, hs⟩
    · exact hf.tables hlast
    · rw [slotTables_sameSlot (hf.frame hs)]
      exact h.live d hd
  · intro slot hs
    rw [List.map_append, List.mem_append, not_or] at hs
    rw [slotTables_sameSlot (hf.frame hs.2)]
    exact h.other slot hs.1

/-- A run of accepted flushes holds the latest block of each slot. -/
theorem flushAll_tables {f : Faults} {batches : List (List DecodedBlock)} {n : ℕ} {c : Conn Store}
    (hrun : flushAll f batches ⟨.empty, none, n⟩ = (.ok (), c)) : HoldsLatest batches.flatten c.store := by
  have := flushAll_invariant (fun _ _ _ _ h hf => HoldsLatest.flushed h hf) holdsLatest_empty hrun
  rwa [List.nil_append] at this

/-! ## The rows of a range -/

theorem latest_slots_nodup : ∀ blocks : List DecodedBlock, ((latest blocks).map (·.slot)).Nodup
  | [] => List.nodup_nil
  | d :: blocks => by
    have ih := latest_slots_nodup blocks
    rw [latest]
    split
    · exact ih
    · rename_i hd
      refine List.nodup_cons.2 ⟨fun hm => hd ?_, ih⟩
      obtain ⟨d', hd', he⟩ := List.mem_map.1 hm
      obtain ⟨pre, post, rfl, _⟩ := mem_latest.1 hd'
      exact List.mem_map.2 ⟨d', by simp, he⟩

/-- A slot that the run names has a latest block. -/
theorem exists_latest {blocks : List DecodedBlock} {slot : Int64} (h : slot ∈ blocks.map (·.slot.toInt64)) :
    ∃ d ∈ latest blocks, d.slot.toInt64 = slot := by
  obtain ⟨pre, d, post, hsplit, hd, hlast⟩ := exists_last h
  exact ⟨d, mem_latest.2 ⟨pre, post, hsplit, hlast⟩, hd⟩

/-- A row of a slot, in one of the tables, is a row of the latest block of the slot. -/
theorem HoldsLatest.exists_block {blocks : List DecodedBlock} {st : Store} (h : HoldsLatest blocks st) {ρ : Type}
    (table : SlotTables → List ρ) (hnone : table .none = []) {slot : Int64} {r : ρ}
    (hr : r ∈ table (slotTables st slot)) :
    ∃ d ∈ latest blocks, d.slot.toInt64 = slot ∧ r ∈ table (blockTables d) := by
  have hslot : slot ∈ blocks.map (·.slot.toInt64) := by
    by_contra hno
    rw [h.other _ hno, hnone] at hr
    cases hr
  obtain ⟨d, hd, rfl⟩ := exists_latest hslot
  exact ⟨d, hd, rfl, h.live d hd ▸ hr⟩

/-- **The rows of a range** in one of the tables are those of the latest blocks in the range. -/
theorem HoldsLatest.rows_perm {blocks : List DecodedBlock} {st : Store} (h : HoldsLatest blocks st) {ρ : Type}
    (table : SlotTables → List ρ) (hnone : table .none = []) {rows : List ρ} {slotOf : ρ → Int64}
    (hrows : ∀ slot, table (slotTables st slot) = rows.filter (slotOf · = slot)) (p : Int64 → Bool) :
    (rows.filter fun r => p (slotOf r)).Perm
      (((latest blocks).filter fun d => p d.slot.toInt64).flatMap fun d => table (blockTables d)) := by
  have hmem : ∀ r ∈ rows.filter fun r => p (slotOf r),
      slotOf r ∈ ((latest blocks).filter fun d => p d.slot.toInt64).map (·.slot.toInt64) := by
    intro r hr
    obtain ⟨hr, hp⟩ := List.mem_filter.1 hr
    have hslot : r ∈ table (slotTables st (slotOf r)) := by
      rw [hrows]
      exact List.mem_filter.2 ⟨hr, decide_eq_true rfl⟩
    obtain ⟨d, hd, he, _⟩ := h.exists_block table hnone hslot
    exact List.mem_map.2 ⟨d, List.mem_filter.2 ⟨hd, by rwa [he]⟩, he⟩
  have hnodup : (((latest blocks).filter fun d => p d.slot.toInt64).map (·.slot.toInt64)).Nodup := by
    have hslots := ((latest_slots_nodup blocks).map (f := UInt64.toInt64) fun _ _ => toInt64_injective)
    rw [List.map_map] at hslots
    exact hslots.sublist (List.filter_sublist.map _)
  refine (HashMap.flatMap_filter_perm _ hnodup hmem).symm.trans (List.Perm.of_eq ?_)
  rw [List.flatMap_map]
  apply List.flatMap_congr
  intro d hd
  obtain ⟨hd, hp⟩ := List.mem_filter.1 hd
  rw [← h.live d hd, hrows, List.filter_filter]
  apply List.filter_congr
  intro r _
  by_cases hr : slotOf r = d.slot.toInt64
  · simp [hr, hp]
  · simp [hr]

end Tenso.Cli
