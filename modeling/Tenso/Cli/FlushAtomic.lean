import Tenso.Cli.Flush

/-!
# When a flush is all or nothing

The slots of a batch are replaced in one transaction, but the steps are written after its `COMMIT`. So a flush is all or
nothing when the transaction is rejected, or when no fault hits an update after it (`StepsWritten`); for batches of
distinct slots this is exactly when (`flushParsedBatch_allOrNothing`). Otherwise the committed rows keep a `NULL` step
(`flushParsedBatch_halfWritten`).
-/

namespace Tenso.Cli

open Ingest (DecodedBlock)
open Storage

/-- The transaction of the flush is committed: the batch is valid and no fault hits it. -/
def Committed (f : Faults) (blocks : List DecodedBlock) (st : Store) (n : ℕ) : Prop :=
  Conn.Quiet f n (statementCount (slotRows blocks)) ∧ Valid st (slotRows blocks)

/-- The rows of a block carry the steps of its schedule. -/
def CarriesSteps (d : DecodedBlock) (st : Store) : Prop :=
  (stepsOf st d.slot.toInt64).map (fun p => (p.1, p.2.map Int32.toInt)) =
    (scheduledSteps d).map fun u => (u.1, some (u.2 : ℤ))

/-- All or nothing, including the schedule. -/
structure AllOrNothing (f : Faults) (blocks : List DecodedBlock) (st : Store) (n : ℕ) : Prop where
  /-- a flush that fails leaves the store as it was -/
  error : ∀ e c, flushParsedBatch f (blocks.map parseBlock) ⟨st, none, n⟩ = (.error e, c) → c.store = st
  /-- a flush that succeeds leaves every row of every block with its step -/
  ok : ∀ c, flushParsedBatch f (blocks.map parseBlock) ⟨st, none, n⟩ = (.ok (), c) →
    ∀ pre d post, blocks = pre ++ d :: post → d.slot ∉ post.map (·.slot) → CarriesSteps d c.store
  /-- no failure leaves a committed transaction without a step -/
  noNull : Committed f blocks st n → ∀ c r, flushParsedBatch f (blocks.map parseBlock) ⟨st, none, n⟩ = (r, c) →
    ∀ t ∈ c.store.transactions.rows, t.slot ∈ blocks.map (·.slot.toInt64) → t.step ≠ none

/-- After a commit, no fault hits an update, and the steps fit the column. -/
def StepsWritten (f : Faults) (blocks : List DecodedBlock) (st : Store) (n : ℕ) : Prop :=
  Committed f blocks st n →
    Conn.Quiet f (n + statementCount (slotRows blocks)) (blocks.flatMap (·.transactions)).length ∧
    ∀ pre d post, blocks = pre ++ d :: post → d.slot ∉ post.map (·.slot) →
      ∀ step ∈ (parseBlock d).schedule.steps, step < 2 ^ 31

/-! ## Steps in a column of 32 bits -/

theorem toInt_ofNat_eq_iff (n : ℕ) : (Int32.ofNat n).toInt = n ↔ n < 2 ^ 31 := by
  rw [Int32.toInt_ofNat', Int32.size]
  constructor
  · intro h
    have := Int.bmod_lt (x := (n : ℤ)) (m := 4294967296) (by omega)
    omega
  · intro h
    exact Int.bmod_eq_of_le (by omega) (by omega)

/-- The rows with the steps written carry them when they fit. -/
theorem carriesSteps_iff {d : DecodedBlock} {st : Store}
    (h : stepsOf st d.slot.toInt64 = (scheduledSteps d).map fun u => (u.1, some (Int32.ofNat u.2))) :
    CarriesSteps d st ↔ ∀ step ∈ (parseBlock d).schedule.steps, step < 2 ^ 31 := by
  have hsteps : (parseBlock d).schedule.steps = (scheduledSteps d).map (·.2) :=
    (List.map_snd_zip (Nat.le_of_eq (parseBlock_steps_length d))).symm
  rw [CarriesSteps, h, List.map_map, List.map_inj_left, hsteps]
  simp only [List.forall_mem_map, Function.comp_apply, Option.map_some, Prod.mk.injEq, Option.some.injEq,
    toInt_ofNat_eq_iff, true_and]

/-! ## Distinct slots -/

/-- With distinct slots every block is the last of its slot. -/
theorem last_of_nodup {blocks pre post : List DecodedBlock} {d : DecodedBlock} (hd : (blocks.map (·.slot)).Nodup)
    (h : blocks = pre ++ d :: post) : d.slot ∉ post.map (·.slot) := by
  rw [h, List.map_append, List.map_cons] at hd
  exact (List.nodup_cons.1 (List.nodup_append.1 hd).2.1).1

/-- In a replaced batch of distinct slots all updates are of different signatures. -/
theorem blockUpdates_nodup {blocks : List DecodedBlock} {st st₁ : Store} (h : ReplacesAll (slotRows blocks) st st₁)
    (hd : (blocks.map (·.slot)).Nodup) : ((blockUpdates blocks).map (·.1)).Nodup := by
  have hholds : ∀ d ∈ blocks, Holds (parseBlock d).slotRow st₁ := by
    intro d hmem
    obtain ⟨pre, post, rfl⟩ := List.append_of_mem hmem
    exact holds_live h (last_of_nodup hd rfl)
  have hsigs : (blockUpdates blocks).map (·.1) = blocks.flatMap fun d =>
      (newTransactions (parseBlock d).slotRow).map (·.signature) := by
    simp only [blockUpdates, stepUpdates, List.flatMap_map, List.map_flatMap]
    exact List.flatMap_congr fun d _ => by
      rw [newTransactions_signatures]
      exact scheduledSteps_signatures d
  rw [hsigs, List.nodup_flatMap]
  refine ⟨fun d hmem => (hholds d hmem).signatures_nodup, ?_⟩
  refine (List.pairwise_map.1 hd).imp_of_mem fun {d d'} hmem hmem' hne => ?_
  -- rows of different slots are different rows of one table
  intro sig hsig hsig'
  obtain ⟨r, hr, rfl⟩ := List.mem_map.1 hsig
  obtain ⟨r', hr', he⟩ := List.mem_map.1 hsig'
  have hr₁ := hr
  have hr₁' := hr'
  rw [← (hholds d hmem).transactions] at hr₁
  rw [← (hholds d' hmem').transactions] at hr₁'
  have := Table.eq_of_key (List.mem_of_mem_filter hr₁') (List.mem_of_mem_filter hr₁) he
  subst this
  exact hne (toInt64_injective ((slot_newTransactions _ _ hr).symm.trans (slot_newTransactions _ _ hr')))

/-- A failed update of a batch of distinct slots leaves a row without a step. -/
theorem exists_null {blocks : List DecodedBlock} {st st₁ : Store} (h : ReplacesAll (slotRows blocks) st st₁)
    (hd : (blocks.map (·.slot)).Nodup) {k : ℕ} (hk : k < (blockUpdates blocks).length) :
    ∃ r ∈ st₁.transactions.rows.map (withStep ((blockUpdates blocks).take k)),
      r.slot ∈ blocks.map (·.slot.toInt64) ∧ r.step = none := by
  obtain ⟨d, hmem, hu⟩ := mem_blockUpdates.1 (List.getElem_mem hk)
  obtain ⟨pre, post, hsplit⟩ := List.append_of_mem hmem
  obtain ⟨r, hr, hsig⟩ := exists_newTransactions hu
  have hr₁ := hr
  rw [← (holds_live (hsplit ▸ h) (last_of_nodup hd hsplit)).transactions] at hr₁
  have hnot : r.signature ∉ ((blockUpdates blocks).take k).map (·.1) := by
    have hnodup := blockUpdates_nodup h hd
    rw [← List.take_append_drop k (blockUpdates blocks), List.map_append, List.nodup_append] at hnodup
    intro hm
    refine hnodup.2.2 _ hm _ ?_ hsig
    rw [List.drop_eq_getElem_cons hk]
    exact List.mem_map_of_mem List.mem_cons_self
  refine ⟨r, List.mem_map.2 ⟨r, List.mem_of_mem_filter hr₁, withStep_eq_self hnot⟩, ?_, newTransactions_step d r hr⟩
  rw [slot_newTransactions _ r hr]
  exact List.mem_map_of_mem hmem

theorem blockUpdates_length (blocks : List DecodedBlock) :
    (blockUpdates blocks).length = (blocks.flatMap (·.transactions)).length := by
  induction blocks with
  | nil => rfl
  | cons d blocks ih =>
    have hd : (scheduledSteps d).length = d.transactions.length := by
      have := congrArg List.length (scheduledSteps_signatures d)
      rwa [List.length_map, List.length_map] at this
    rw [blockUpdates_cons, List.flatMap_cons, List.length_append, List.length_append, ih, hd]

/-! ## The condition -/

/-- The condition is enough for every batch. -/
theorem StepsWritten.allOrNothing {f : Faults} {blocks : List DecodedBlock} {st : Store} {n : ℕ}
    (h : StepsWritten f blocks st n) : AllOrNothing f blocks st n := by
  rcases flush_cases f blocks st n with ⟨e, m, hrun, hno⟩ | ⟨st', m, hrun, hq, _, hfl⟩ |
    ⟨st₁, t, e, k, m, hrun, hq, hst₁, hk, hf, _⟩
  · rw [← Committed] at hno
    refine ⟨fun e' c hc => ?_, fun c hc => ?_, fun hcom => absurd hcom hno⟩
    · rw [hrun] at hc
      cases hc
      rfl
    · rw [hrun] at hc
      cases hc
  · obtain ⟨st₁, hst₁, _⟩ := hfl.replaced
    obtain ⟨_, hsteps⟩ := h ⟨hq, st₁, hst₁⟩
    refine ⟨fun e' c hc => ?_, fun c hc pre d post hsplit hlast => ?_, fun _ c r hc t ht hslot => ?_⟩
    · rw [hrun] at hc
      cases hc
    · rw [hrun] at hc
      cases hc
      exact (carriesSteps_iff ((hsplit ▸ hfl).live hlast)).2 (hsteps pre d post hsplit hlast)
    · rw [hrun] at hc
      cases hc
      obtain ⟨pre, d, post, hsplit, hd, hlast⟩ := exists_last hslot
      have hmem : (t.signature, t.step) ∈ stepsOf st' d.slot.toInt64 :=
        List.mem_map.2 ⟨t, List.mem_filter.2 ⟨ht, decide_eq_true hd.symm⟩, rfl⟩
      have hfl' : Flushed (pre ++ d :: post) st st' := hsplit ▸ hfl
      rw [hfl'.live hlast] at hmem
      obtain ⟨u, _, he⟩ := List.mem_map.1 hmem
      rw [Prod.mk.injEq] at he
      rw [← he.2]
      exact Option.some_ne_none _
  · have hquiet := (h ⟨hq, st₁, hst₁⟩).1 k (blockUpdates_length blocks ▸ hk)
    rw [hf] at hquiet
    cases hquiet

/-- The condition is needed when the slots are distinct. -/
theorem AllOrNothing.stepsWritten {f : Faults} {blocks : List DecodedBlock} {st : Store} {n : ℕ}
    (h : AllOrNothing f blocks st n) (hd : (blocks.map (·.slot)).Nodup) : StepsWritten f blocks st n := by
  intro hcom
  rcases flush_cases f blocks st n with ⟨_, _, _, hno⟩ | ⟨st', m, hrun, _, hq', hfl⟩ |
    ⟨st₁, t, e, k, m, hrun, _, hst₁, hk, _, ht⟩
  · exact absurd hcom hno
  · refine ⟨blockUpdates_length blocks ▸ hq', fun pre d post hsplit hlast => ?_⟩
    exact (carriesSteps_iff ((hsplit ▸ hfl).live hlast)).1 (h.ok _ hrun pre d post hsplit hlast)
  · obtain ⟨r, hr, hslot, hstep⟩ := exists_null hst₁ hd hk
    rw [← ht] at hr
    exact absurd hstep (h.noNull hcom _ _ hrun r hr hslot)

/-- **When a flush is all or nothing.** It is for every batch whose transaction is rejected or whose updates meet no
fault and fit their column, and for batches of distinct slots only then. -/
theorem flushParsedBatch_allOrNothing (f : Faults) (blocks : List DecodedBlock) (st : Store) (n : ℕ) :
    (StepsWritten f blocks st n → AllOrNothing f blocks st n) ∧
    ((blocks.map (·.slot)).Nodup → (AllOrNothing f blocks st n ↔ StepsWritten f blocks st n)) :=
  ⟨StepsWritten.allOrNothing, fun hd => ⟨fun h => h.stepsWritten hd, StepsWritten.allOrNothing⟩⟩

/-! ## A half-written batch -/

/-- A block of one transaction. -/
def oneTxBlock : DecodedBlock :=
  { slot := 1, blockTime := none, transactions := [⟨"sig", 1, none, [], [⟨"account", true⟩], [], false⟩] }

/-- A fault at the update after the `COMMIT`: the flush fails, and the transaction stays committed without a step. -/
theorem flushParsedBatch_halfWritten :
    ∃ c, flushParsedBatch (fun n => n = 11) ([oneTxBlock].map parseBlock) ⟨.empty, none, 0⟩ = (.error .io, c) ∧
      c.store.transactions.rows = [⟨"sig", 1, none, false, "[]", none⟩] ∧ c.store ≠ .empty := by
  refine ⟨_, rfl, rfl, fun h => ?_⟩
  have : [(⟨"sig", 1, none, false, "[]", none⟩ : TransactionsRow)] = [] :=
    congrArg (fun st => st.transactions.rows) h
  cases this

end Tenso.Cli
