import Mathlib.Data.List.Induction
import Tenso.Cli.Parse
import Tenso.Lib.LastOf
import Tenso.Storage.Atomic

/-!
# Flushing a batch

`flushParsedBatch` replaces the slots of a batch in one transaction and then writes the schedule steps back, one
`UPDATE` by signature after the other, outside of any transaction (`flushParsedBatch_cases`).

- The updates of a run set the step of a signature to the last one written (`applySteps_rows`).
- In a batch that was replaced, a block that is the last of its slot shares no signature with the blocks after it
  (`ReplacesAll.signature_notMem`), so after a flush its rows carry its own steps (`Flushed.live`), and rows of other
  slots are as before (`Flushed.frame`).
-/

namespace Tenso.Cli

open Ingest (DecodedBlock)
open Storage

/-- The statements that write the steps of a batch back. -/
def stepStatements (blocks : List ParsedBlock) : List (Stmt Store) :=
  blocks.flatMap fun b => writeScheduleSteps b.signatures b.schedule

/-- Flush a batch: replace its slots, then write the steps back. -/
def flushParsedBatch (f : Faults) (blocks : List ParsedBlock) (c : Conn Store) : Except DbError Unit × Conn Store :=
  match replaceSlotsBatch f (blocks.map (·.slotRow)) c with
  | (.error e, c) => (.error e, c)
  | (.ok (), c) => c.executeAll f (stepStatements blocks)

/-! ## Writing steps -/

/-- The signatures of a batch with their steps, in the order of the updates. -/
def stepUpdates (blocks : List ParsedBlock) : List (String × Nat) :=
  blocks.flatMap fun b => b.signatures.zip b.schedule.steps

/-- The last step written for a signature. -/
def lastStep (us : List (String × Nat)) (sig : String) : Option Nat :=
  us.foldl (fun step u => if u.1 = sig then some u.2 else step) none

/-- The row after the updates. -/
def withStep (us : List (String × Nat)) (r : TransactionsRow) : TransactionsRow :=
  { r with step := ((lastStep us r.signature).map Int32.ofNat).or r.step }

theorem lastStep_append (us us' : List (String × Nat)) (sig : String) :
    lastStep (us ++ us') sig = (lastStep us' sig).or (lastStep us sig) := by
  unfold lastStep
  rw [List.foldl_append]
  generalize us.foldl (fun step u => if u.1 = sig then some u.2 else step) none = acc
  induction us' using List.reverseRecOn with
  | nil => rfl
  | append_singleton us' u ih =>
    rw [List.foldl_append, List.foldl_append, List.foldl_cons, List.foldl_nil, List.foldl_cons, List.foldl_nil, ih]
    split <;> rfl

theorem lastStep_cons (u : String × Nat) (us : List (String × Nat)) (sig : String) :
    lastStep (u :: us) sig = (lastStep us sig).or (if u.1 = sig then some u.2 else none) :=
  lastStep_append [u] us sig

theorem lastStep_eq_none {us : List (String × Nat)} {sig : String} (h : sig ∉ us.map (·.1)) :
    lastStep us sig = none := by
  induction us using List.reverseRecOn with
  | nil => rfl
  | append_singleton us u ih =>
    rw [List.map_append, List.mem_append, not_or, List.map_singleton, List.mem_singleton] at h
    rw [lastStep_append, ih h.1, Option.or_none]
    exact if_neg (Ne.symm h.2)

/-- With distinct signatures every signature gets its own step. -/
theorem lastStep_eq_some {us : List (String × Nat)} (hd : (us.map (·.1)).Nodup) {sig : String} {step : Nat}
    (h : (sig, step) ∈ us) : lastStep us sig = some step := by
  obtain ⟨pre, post, rfl⟩ := List.append_of_mem h
  rw [List.map_append, List.map_cons, List.nodup_append, List.nodup_cons] at hd
  rw [lastStep_append, lastStep_cons, lastStep_eq_none hd.2.1.1, Option.none_or, if_pos rfl, Option.some_or]

/-- The updates always succeed and set the step of each row to the last one written for its signature. -/
theorem run_updateSteps : ∀ (us : List (String × Nat)) (st : Store), ∃ t,
    Stmt.run (us.map fun u => updateStep u.1 u.2) st = .ok { st with transactions := t } ∧
      t.rows = st.transactions.rows.map (withStep us)
  | [], st => ⟨st.transactions, rfl, by
      have : withStep [] = id := rfl
      rw [this, List.map_id]⟩
  | u :: us, st => by
    let set (r : TransactionsRow) : TransactionsRow := { r with step := some (Int32.ofNat u.2) }
    let updated := st.transactions.updateWhere (·.signature = u.1) set fun _ => rfl
    obtain ⟨t, ht, hrows⟩ := run_updateSteps us { st with transactions := updated }
    refine ⟨t, ?_, ?_⟩
    · rw [List.map_cons, Stmt.run_cons_ok]
      exact ⟨_, rfl, ht⟩
    · rw [hrows, Table.updateWhere_rows, List.map_map]
      apply List.map_congr_left
      intro r _
      have hu := lastStep_cons u us r.signature
      rw [Function.comp_apply]
      by_cases h : r.signature = u.1
      · rw [if_pos h.symm, h] at hu
        simp only [withStep, hu, h, decide_true, if_true, set]
        cases lastStep us u.1 <;> rfl
      · rw [if_neg (Ne.symm h), Option.or_none] at hu
        simp only [withStep, hu, h, decide_false, Bool.false_eq_true, if_false]

theorem stepStatements_eq (blocks : List ParsedBlock) :
    stepStatements blocks = (stepUpdates blocks).map fun u => updateStep u.1 u.2 := by
  simp only [stepStatements, stepUpdates, List.map_flatMap]
  rfl

/-- A flush: the transaction is rejected and the store stays; or it is committed and all updates run; or it is
committed and an update fails, which leaves the updates before it. -/
theorem flushParsedBatch_cases (f : Faults) (blocks : List ParsedBlock) (st : Store) (n : ℕ) :
    (∃ e m, flushParsedBatch f blocks ⟨st, none, n⟩ = (.error e, ⟨st, none, m⟩) ∧
      ¬(Conn.Quiet f n (statementCount (blocks.map (·.slotRow))) ∧ Valid st (blocks.map (·.slotRow)))) ∨
    ∃ st₁, ReplacesAll (blocks.map (·.slotRow)) st st₁ ∧
      Conn.Quiet f n (statementCount (blocks.map (·.slotRow))) ∧
      ((∃ t m, flushParsedBatch f blocks ⟨st, none, n⟩ = (.ok (), ⟨{ st₁ with transactions := t }, none, m⟩) ∧
        Conn.Quiet f (n + statementCount (blocks.map (·.slotRow))) (stepUpdates blocks).length ∧
        t.rows = st₁.transactions.rows.map (withStep (stepUpdates blocks))) ∨
      ∃ t e k m, flushParsedBatch f blocks ⟨st, none, n⟩ = (.error e, ⟨{ st₁ with transactions := t }, none, m⟩) ∧
        k < (stepUpdates blocks).length ∧ f (n + statementCount (blocks.map (·.slotRow)) + k) = true ∧
        t.rows = st₁.transactions.rows.map (withStep ((stepUpdates blocks).take k))) := by
  rcases replaceSlotsBatch_cases f (blocks.map (·.slotRow)) st n with ⟨st₁, hrun, hq, hst₁⟩ | ⟨e, m, hrun, hno⟩
  · have hflush : flushParsedBatch f blocks ⟨st, none, n⟩ =
        Conn.executeAll f ((stepUpdates blocks).map fun u => updateStep u.1 u.2)
          ⟨st₁, none, n + statementCount (blocks.map (·.slotRow))⟩ := by
      rw [flushParsedBatch, hrun, stepStatements_eq]
    rw [hflush]
    refine Or.inr ⟨st₁, hst₁, hq, ?_⟩
    rcases Conn.executeAll_autocommit (f := f) ((stepUpdates blocks).map fun u => updateStep u.1 u.2) st₁
      (n + statementCount (blocks.map (·.slotRow))) with ⟨st', hex, hq', hst'⟩ | ⟨k, hk, e, st', hex, _, hst', he⟩
    · rw [List.length_map] at hq'
      obtain ⟨t, ht, htr⟩ := run_updateSteps (stepUpdates blocks) st₁
      rw [ht, Except.ok.injEq] at hst'
      subst hst'
      exact Or.inl ⟨t, _, hex, hq', htr⟩
    · rw [List.length_map] at hk
      obtain ⟨t, ht, htr⟩ := run_updateSteps ((stepUpdates blocks).take k) st₁
      rw [← List.map_take, ht, Except.ok.injEq] at hst'
      subst hst'
      refine Or.inr ⟨t, e, k, _, hex, hk, ?_, htr⟩
      -- an update has no failure of its own
      apply he.resolve_right
      intro hu
      rw [List.get_eq_getElem, List.getElem_map] at hu
      cases hu
  · exact Or.inl ⟨e, m, by rw [flushParsedBatch, hrun], hno⟩

/-! ## A flush of parsed blocks -/

/-- The rows of decoded blocks. -/
def slotRows (blocks : List DecodedBlock) : List SlotBatchRow := blocks.map fun d => (parseBlock d).slotRow

/-- The updates of decoded blocks. -/
def blockUpdates (blocks : List DecodedBlock) : List (String × Nat) := stepUpdates (blocks.map parseBlock)

/-- The signatures of a block with their scheduled steps. -/
def scheduledSteps (d : DecodedBlock) : List (String × Nat) :=
  (parseBlock d).signatures.zip (parseBlock d).schedule.steps

theorem scheduledSteps_signatures (d : DecodedBlock) :
    (scheduledSteps d).map (·.1) = d.transactions.map (·.signature) :=
  List.map_fst_zip (Nat.le_of_eq (parseBlock_steps_length d).symm)

theorem newTransactions_signatures (d : DecodedBlock) :
    (newTransactions (parseBlock d).slotRow).map (·.signature) = d.transactions.map (·.signature) := by
  simp only [newTransactions, ParsedBlock.slotRow, parseBlock, List.map_map]
  rfl

theorem newTransactions_step (d : DecodedBlock) : ∀ r ∈ newTransactions (parseBlock d).slotRow, r.step = none := by
  intro r hr
  simp only [newTransactions, ParsedBlock.slotRow, parseBlock, List.map_map, List.mem_map] at hr
  obtain ⟨t, _, rfl⟩ := hr
  rfl

theorem slotRows_slots (blocks : List DecodedBlock) :
    (slotRows blocks).map (·.slot.toInt64) = blocks.map (·.slot.toInt64) := by
  rw [slotRows, List.map_map]
  rfl

theorem blockUpdates_append (blocks blocks' : List DecodedBlock) :
    blockUpdates (blocks ++ blocks') = blockUpdates blocks ++ blockUpdates blocks' := by
  rw [blockUpdates, stepUpdates, List.map_append, List.flatMap_append]
  rfl

theorem blockUpdates_cons (d : DecodedBlock) (blocks : List DecodedBlock) :
    blockUpdates (d :: blocks) = scheduledSteps d ++ blockUpdates blocks := by
  rw [blockUpdates, stepUpdates, List.map_cons, List.flatMap_cons]
  rfl

theorem mem_blockUpdates {blocks : List DecodedBlock} {u : String × Nat} :
    u ∈ blockUpdates blocks ↔ ∃ d ∈ blocks, u ∈ scheduledSteps d := by
  induction blocks with
  | nil => simp [blockUpdates, stepUpdates]
  | cons d blocks ih => simp [blockUpdates_cons, ih]

/-- The signature of an update belongs to a new row of its block. -/
theorem exists_newTransactions {d : DecodedBlock} {u : String × Nat} (hu : u ∈ scheduledSteps d) :
    ∃ r ∈ newTransactions (parseBlock d).slotRow, r.signature = u.1 := by
  have hmem : u.1 ∈ (scheduledSteps d).map (·.1) := List.mem_map_of_mem hu
  rw [scheduledSteps_signatures, ← newTransactions_signatures] at hmem
  exact List.mem_map.1 hmem

/-- What an accepted flush does to the store. -/
structure Flushed (blocks : List DecodedBlock) (st st' : Store) : Prop where
  replaced : ∃ st₁, ReplacesAll (slotRows blocks) st st₁ ∧
    st'.transactions.rows = st₁.transactions.rows.map (withStep (blockUpdates blocks)) ∧
    st' = { st₁ with transactions := st'.transactions }

/-- `flushParsedBatch_cases` for decoded blocks. -/
theorem flush_cases (f : Faults) (blocks : List DecodedBlock) (st : Store) (n : ℕ) :
    (∃ e m, flushParsedBatch f (blocks.map parseBlock) ⟨st, none, n⟩ = (.error e, ⟨st, none, m⟩) ∧
      ¬(Conn.Quiet f n (statementCount (slotRows blocks)) ∧ Valid st (slotRows blocks))) ∨
    (∃ st' m, flushParsedBatch f (blocks.map parseBlock) ⟨st, none, n⟩ = (.ok (), ⟨st', none, m⟩) ∧
      Conn.Quiet f n (statementCount (slotRows blocks)) ∧
      Conn.Quiet f (n + statementCount (slotRows blocks)) (blockUpdates blocks).length ∧ Flushed blocks st st') ∨
    ∃ st₁ t e k m, flushParsedBatch f (blocks.map parseBlock) ⟨st, none, n⟩ =
        (.error e, ⟨{ st₁ with transactions := t }, none, m⟩) ∧
      Conn.Quiet f n (statementCount (slotRows blocks)) ∧ ReplacesAll (slotRows blocks) st st₁ ∧
      k < (blockUpdates blocks).length ∧ f (n + statementCount (slotRows blocks) + k) = true ∧
      t.rows = st₁.transactions.rows.map (withStep ((blockUpdates blocks).take k)) := by
  have hrows : (blocks.map parseBlock).map (·.slotRow) = slotRows blocks := by
    rw [List.map_map]
    rfl
  have h := flushParsedBatch_cases f (blocks.map parseBlock) st n
  rw [hrows] at h
  rcases h with hrej | ⟨st₁, hst₁, hq, ⟨t, m, hrun, hq', ht⟩ | ⟨t, e, k, m, hrun, hk, hf, ht⟩⟩
  · exact Or.inl hrej
  · exact Or.inr (Or.inl ⟨_, m, hrun, hq, hq', ⟨st₁, hst₁, ht, rfl⟩⟩)
  · exact Or.inr (Or.inr ⟨st₁, t, e, k, m, hrun, hq, hst₁, hk, hf, ht⟩)

theorem withStep_eq_self {us : List (String × Nat)} {r : TransactionsRow} (h : r.signature ∉ us.map (·.1)) :
    withStep us r = r := by
  rw [withStep, lastStep_eq_none h]
  rfl

theorem filter_map_withStep (us : List (String × Nat)) (slot : Int64) (rows : List TransactionsRow) :
    (rows.map (withStep us)).filter (·.slot = slot) = (rows.filter (·.slot = slot)).map (withStep us) := by
  rw [List.filter_map]
  rfl

/-- Frame of a flush: the rows of a slot that the batch does not name stay, with their steps. -/
theorem Flushed.frame {blocks : List DecodedBlock} {st st' : Store} (h : Flushed blocks st st') {slot : Int64}
    (hs : slot ∉ blocks.map (·.slot.toInt64)) : SameSlot slot st st' := by
  obtain ⟨st₁, hst₁, hrows, heq⟩ := h.replaced
  have hs' : slot ∉ (slotRows blocks).map (·.slot.toInt64) := by rwa [slotRows_slots]
  have hframe := hst₁.frame hs'
  refine ⟨heq ▸ hframe.blocks, ?_, heq ▸ hframe.accountLocks, heq ▸ hframe.tokenBalanceChanges⟩
  rw [hrows, filter_map_withStep, hframe.transactions]
  conv => rhs; rw [← List.map_id (List.filter _ st.transactions.rows)]
  refine List.map_congr_left fun r hr => withStep_eq_self fun hu => ?_
  -- an update of a row outside the batch would be a duplicate signature
  obtain ⟨hr, hslot⟩ := List.mem_filter.1 hr
  obtain ⟨u, hu, he⟩ := List.mem_map.1 hu
  obtain ⟨d, hd, hu⟩ := mem_blockUpdates.1 hu
  obtain ⟨r', hr', he'⟩ := exists_newTransactions hu
  have hd' : (parseBlock d).slotRow ∈ slotRows blocks := List.mem_map_of_mem hd
  refine hst₁.signature_ne hr ?_ hd' hr' (he'.trans he)
  rwa [of_decide_eq_true hslot]

/-- The signatures and steps of the rows of a slot. -/
def stepsOf (st : Store) (slot : Int64) : List (String × Option Int32) :=
  (st.transactions.rows.filter (·.slot = slot)).map fun r => (r.signature, r.step)

theorem slotRows_append_cons (pre : List DecodedBlock) (d : DecodedBlock) (post : List DecodedBlock) :
    slotRows (pre ++ d :: post) = slotRows pre ++ (parseBlock d).slotRow :: slotRows post := by
  simp [slotRows]

theorem notMem_slotRows {d : DecodedBlock} {post : List DecodedBlock} (h : d.slot ∉ post.map (·.slot)) :
    d.slot.toInt64 ∉ (slotRows post).map (·.slot.toInt64) := by
  rw [slotRows_slots]
  intro hm
  obtain ⟨d', hd', he⟩ := List.mem_map.1 hm
  exact h (toInt64_injective he ▸ List.mem_map_of_mem hd')

/-- A slot that a batch names has a last block. -/
theorem exists_last {slot : Int64} {blocks : List DecodedBlock} (h : slot ∈ blocks.map (·.slot.toInt64)) :
    ∃ pre d post, blocks = pre ++ d :: post ∧ d.slot.toInt64 = slot ∧ d.slot ∉ post.map (·.slot) := by
  obtain ⟨d, hd, rfl⟩ := List.mem_map.1 h
  obtain ⟨d', ⟨pre, post, hsplit, hlast⟩, hslot⟩ : ∃ d', LastOf DecodedBlock.slot blocks d' ∧ d'.slot = d.slot :=
    exists_lastOf (List.mem_map_of_mem hd)
  exact ⟨pre, d', post, hsplit, congrArg UInt64.toInt64 hslot, hlast⟩

/-- The last block of a slot decides its rows. -/
theorem holds_live {pre post : List DecodedBlock} {d : DecodedBlock} {st st₁ : Store}
    (h : ReplacesAll (slotRows (pre ++ d :: post)) st st₁) (hlast : d.slot ∉ post.map (·.slot)) :
    Holds (parseBlock d).slotRow st₁ := by
  rw [slotRows_append_cons] at h
  exact h.holds (notMem_slotRows hlast)

/-- In a replaced batch the last write to a signature of a live block is its own step. -/
theorem lastStep_live {pre post : List DecodedBlock} {d : DecodedBlock} {st st₁ : Store}
    (h : ReplacesAll (slotRows (pre ++ d :: post)) st st₁) (hlast : d.slot ∉ post.map (·.slot))
    {u : String × Nat} (hu : u ∈ scheduledSteps d) :
    lastStep (blockUpdates (pre ++ d :: post)) u.1 = some u.2 := by
  have hnodup : ((scheduledSteps d).map (·.1)).Nodup := by
    rw [scheduledSteps_signatures, ← newTransactions_signatures]
    exact (holds_live h hlast).signatures_nodup
  have hpost : u.1 ∉ (blockUpdates post).map (·.1) := by
    intro hm
    obtain ⟨u', hu', he⟩ := List.mem_map.1 hm
    obtain ⟨d', hd', hu'⟩ := mem_blockUpdates.1 hu'
    obtain ⟨r, hr, hru⟩ := exists_newTransactions hu
    obtain ⟨r', hr', hru'⟩ := exists_newTransactions hu'
    rw [slotRows_append_cons] at h
    exact h.signature_ne_later (notMem_slotRows hlast) (List.mem_map_of_mem hd') hr hr' (by rw [hru, hru', he])
  rw [blockUpdates_append, blockUpdates_cons, lastStep_append, lastStep_append, lastStep_eq_none hpost,
    Option.none_or, lastStep_eq_some hnodup hu, Option.some_or]

/-- **The live rows of a flush.** The rows of the last block of a slot carry its scheduled steps. -/
theorem Flushed.live {pre post : List DecodedBlock} {d : DecodedBlock} {st st' : Store}
    (h : Flushed (pre ++ d :: post) st st') (hlast : d.slot ∉ post.map (·.slot)) :
    stepsOf st' d.slot.toInt64 = (scheduledSteps d).map fun u => (u.1, some (Int32.ofNat u.2)) := by
  obtain ⟨st₁, hst₁, hrows, _⟩ := h.replaced
  generalize hU : blockUpdates (pre ++ d :: post) = U at hrows
  have hnew : ∀ r ∈ newTransactions (parseBlock d).slotRow,
      (r.signature, (withStep U r).step) = (r.signature, (lastStep U r.signature).map Int32.ofNat) := by
    intro r hr
    rw [withStep, newTransactions_step d r hr, Option.or_none]
  calc stepsOf st' d.slot.toInt64
      = (newTransactions (parseBlock d).slotRow).map fun r => (r.signature, (withStep U r).step) := by
        rw [stepsOf, hrows, filter_map_withStep, List.map_map, ← (holds_live hst₁ hlast).transactions]
        rfl
    _ = ((newTransactions (parseBlock d).slotRow).map (·.signature)).map
          fun sig => (sig, (lastStep U sig).map Int32.ofNat) := by
        rw [List.map_map]
        exact List.map_congr_left hnew
    _ = (scheduledSteps d).map fun u => (u.1, (lastStep U u.1).map Int32.ofNat) := by
        rw [newTransactions_signatures, ← scheduledSteps_signatures, List.map_map]
        rfl
    _ = (scheduledSteps d).map fun u => (u.1, some (Int32.ofNat u.2)) := by
        apply List.map_congr_left
        intro u hu
        rw [← hU, lastStep_live hst₁ hlast hu]
        rfl

/-- A block of two transactions that write one account. -/
def conflictBlock (slot : UInt64) (first second : String) : DecodedBlock :=
  { slot, blockTime := none,
    transactions := [⟨first, slot, none, [], [⟨"account", true⟩], [], false⟩,
      ⟨second, slot, none, [], [⟨"account", true⟩], [], false⟩] }

end Tenso.Cli
