import Tenso.Cli.StoreStage

/-!
# Blocks that the store stage loses

The status of a slot is written before its block is flushed, and a flush in the middle of the run may fail unnoticed.

- When the stage succeeds, every slot recorded as ingested has its data stored exactly when no flush in the middle of
  the run loses a block for good (`storeStage_noSilentLoss`).
- With batches of one block, one rejected flush loses a block silently (`storeStage_silentLoss`).
-/

namespace Tenso.Cli

open Storage

/-- The last outcome of the slot of `b` is `b` itself. -/
def LastIngested (outcomes : List ParsedOutcome) (b : ParsedBlock) : Prop :=
  LastOf ParsedOutcome.slot outcomes (.ingested b)

/-- No silent loss: every slot of the run that is recorded as ingested has the run's block stored. -/
def NoSilentLoss (outcomes : List ParsedOutcome) (st : Store) : Prop :=
  ∀ slot ∈ outcomes.map (·.slot),
    (∃ note, (⟨slot.toInt64, "ingested", note⟩ : IngestionStatusRow) ∈ st.ingestionStatus.rows) →
    ∃ b, LastIngested outcomes b ∧ b.slot = slot ∧ Stored b st

/-- A block that is the last outcome of its slot is stored, if the slot is recorded as ingested. -/
theorem NoSilentLoss.stored {outcomes : List ParsedOutcome} {st : Store} (h : NoSilentLoss outcomes st)
    {b : ParsedBlock}
    (hlast : LastIngested outcomes b) (hrow : ⟨b.slot.toInt64, "ingested", none⟩ ∈ st.ingestionStatus.rows) :
    Stored b st := by
  obtain ⟨b', hb', he, hstored⟩ := h b.slot (List.mem_map_of_mem hlast.mem) ⟨none, hrow⟩
  cases hlast.unique hb' he.symm
  exact hstored

/-- Every flush in the middle of the run is committed, or loses nothing: each block of it that is the last of its slot
in the run is stored already. -/
def FlushesKeep (f : Faults) (batchSize : ℕ) (outcomes : List ParsedOutcome) (c : Conn Store) : Prop :=
  ∀ pre o rest s s', outcomes = pre ++ o :: rest → storeLoop f batchSize pre (.init c) = (.ok (), s) →
    recordOutcome f o s = (.ok (), s') → batchSize ≤ s'.pending.length →
    Commits f s'.pending s'.conn ∨
    ∀ b ∈ s'.pending, LastIngested (pre ++ [o]) b → b.slot ∉ rest.map (·.slot) → Stored b s'.conn.store

/-! ## Runs of the loop -/

theorem storeLoop_append {f : Faults} {batchSize : ℕ} : ∀ {os os' : List ParsedOutcome} {s s' : StoreState},
    storeLoop f batchSize (os ++ os') s = (.ok (), s') ↔
      ∃ t, storeLoop f batchSize os s = (.ok (), t) ∧ storeLoop f batchSize os' t = (.ok (), s')
  | [], os', s, s' => by simp [storeLoop]
  | o :: os, os', s, s' => by
    simp only [List.cons_append, storeLoop]
    rcases storeOutcome f batchSize o s with ⟨_ | _, t⟩
    · simp
    · exact storeLoop_append

/-- One turn: a status write, and a flush when the batch is full. -/
theorem storeOutcome_eq_ok {f : Faults} {batchSize : ℕ} {o : ParsedOutcome} {s s' : StoreState} :
    storeOutcome f batchSize o s = (.ok (), s') ↔ ∃ t, recordOutcome f o s = (.ok (), t) ∧
      s' = if batchSize ≤ t.pending.length then (flushPending f t).2 else t := by
  unfold storeOutcome
  rcases recordOutcome f o s with ⟨_ | _, t⟩
  · simp
  · simp [eq_comm]

theorem storeLoop_singleton {f : Faults} {batchSize : ℕ} {o : ParsedOutcome} {s s' : StoreState} :
    storeLoop f batchSize [o] s = (.ok (), s') ↔ storeOutcome f batchSize o s = (.ok (), s') := by
  unfold storeLoop
  rcases storeOutcome f batchSize o s with ⟨_ | _, t⟩
  · simp
  · simp [storeLoop]

theorem flushPending_pending (f : Faults) (s : StoreState) : (flushPending f s).2.pending = [] := rfl

theorem blocks_slot {o : ParsedOutcome} {b : ParsedBlock} (h : b ∈ o.blocks) : o = .ingested b := by
  cases o with
  | ingested b' => rw [List.mem_singleton.1 h]
  | skipped slot => cases h
  | failed slot error => cases h

/-- One turn keeps the connection idle, and the data of slots that are neither pending nor named. -/
theorem storeOutcome_frame {f : Faults} {batchSize : ℕ} {o : ParsedOutcome} {s s' : StoreState}
    (hidle : s.conn.txn = none) (h : storeOutcome f batchSize o s = (.ok (), s')) :
    s'.conn.txn = none ∧
    s'.conn.store.ingestionStatus = s.conn.store.ingestionStatus.upsert (statusRow o) ∧
    (∀ b ∈ s'.pending, b ∈ s.pending ∨ o = .ingested b) ∧
    ∀ slot, slot ∉ s.pending.map (·.slot.toInt64) → slot ≠ o.slot.toInt64 →
      slotData s'.conn.store slot = slotData s.conn.store slot := by
  obtain ⟨t, hrec, rfl⟩ := storeOutcome_eq_ok.1 h
  obtain ⟨hti, htp, hts, htd⟩ := recordOutcome_spec hidle hrec
  have hpend : ∀ b ∈ t.pending, b ∈ s.pending ∨ o = .ingested b := by
    intro b hb
    rw [htp, List.mem_append] at hb
    exact hb.imp_right blocks_slot
  split
  · obtain ⟨hfi, hfs, hfd, _⟩ := flushPending_spec f hti
    refine ⟨hfi, hfs.trans hts, fun b hb => absurd hb List.not_mem_nil, fun slot hs ho => ?_⟩
    rw [hfd slot fun hm => ?_, htd]
    obtain ⟨b, hb, rfl⟩ := List.mem_map.1 hm
    rcases hpend b hb with hb | rfl
    · exact hs (List.mem_map_of_mem hb)
    · exact ho rfl
  · exact ⟨hti, hts, hpend, fun slot _ _ => htd slot⟩

/-- Frame of the loop. -/
theorem storeLoop_frame {f : Faults} {batchSize : ℕ} : ∀ {os : List ParsedOutcome} {s s' : StoreState},
    s.conn.txn = none → storeLoop f batchSize os s = (.ok (), s') →
    s'.conn.txn = none ∧ (∀ b ∈ s'.pending, b ∈ s.pending ∨ .ingested b ∈ os) ∧
    ∀ slot, slot ∉ s.pending.map (·.slot.toInt64) → slot ∉ os.map (·.slot.toInt64) →
      slotData s'.conn.store slot = slotData s.conn.store slot
  | [], s, s', hidle, h => by
    cases h
    exact ⟨hidle, fun b hb => Or.inl hb, fun _ _ _ => rfl⟩
  | o :: os, s, s', hidle, h => by
    rw [← List.singleton_append, storeLoop_append] at h
    obtain ⟨t, hone, hrest⟩ := h
    obtain ⟨hti, _, htp, htd⟩ := storeOutcome_frame hidle (storeLoop_singleton.1 hone)
    obtain ⟨hi, hp, hd⟩ := storeLoop_frame hti hrest
    refine ⟨hi, fun b hb => ?_, fun slot hs ho => ?_⟩
    · rcases hp b hb with hb | hb
      · refine (htp b hb).imp_right fun (he : o = .ingested b) => ?_
        rw [he]
        exact List.mem_cons_self
      · exact Or.inr (List.mem_cons_of_mem o hb)
    · rw [List.map_cons, List.mem_cons, not_or] at ho
      rw [hd slot (fun hm => ?_) ho.2, htd slot hs ho.1]
      obtain ⟨b, hb, rfl⟩ := List.mem_map.1 hm
      rcases htp b hb with hb | rfl
      · exact hs (List.mem_map_of_mem hb)
      · exact ho.1 rfl

/-- The statuses of a run: each slot has the status of its last outcome. -/
theorem storeLoop_status {f : Faults} {batchSize : ℕ} {c : Conn Store} (hidle : c.txn = none) {os : List ParsedOutcome}
    {s : StoreState} (h : storeLoop f batchSize os (.init c) = (.ok (), s)) {o : ParsedOutcome}
    (ho : LastOf ParsedOutcome.slot os o) :
    s.conn.store.ingestionStatus.rows.filter (·.slot = o.slot.toInt64) = [statusRow o] := by
  induction os using List.reverseRecOn generalizing s with
  | nil => exact absurd ho not_lastOf_nil
  | append_singleton os o' ih =>
    obtain ⟨t, hpre, hlast⟩ := storeLoop_append.1 h
    obtain ⟨_, hs, _, _⟩ := storeOutcome_frame (storeLoop_frame hidle hpre).1 (storeLoop_singleton.1 hlast)
    rw [hs]
    rcases lastOf_concat.1 ho with rfl | ⟨ho, hne⟩
    · exact Table.filter_upsert_eq fun x => decide_eq_true_iff
    · rw [Table.filter_upsert_of_ne, ih hpre ho]
      intro x hx
      refine decide_eq_false fun he => hne (toInt64_injective ?_)
      rw [← he, hx]
      rfl

/-! ## What is stored -/

/-- Blocks that are not pending and not superseded later are stored, and pending ones are last in the batch. -/
structure Kept (done rest : List ParsedOutcome) (s : StoreState) : Prop where
  pending : ∀ b, LastIngested done b → b.slot ∈ s.pending.map (·.slot) → LastOf ParsedBlock.slot s.pending b
  stored : ∀ b, LastIngested done b → b.slot ∉ rest.map (·.slot) → b.slot ∉ s.pending.map (·.slot) →
    Stored b s.conn.store

theorem slot_toInt64_notMem {b : ParsedBlock} {bs : List ParsedBlock} (h : b.slot ∉ bs.map (·.slot)) :
    b.slot.toInt64 ∉ bs.map (·.slot.toInt64) := by
  intro hm
  obtain ⟨b', hb', he⟩ := List.mem_map.1 hm
  exact h (List.mem_map.2 ⟨b', hb', toInt64_injective he⟩)

/-- A status write keeps the invariant. -/
theorem Kept.record {f : Faults} {done rest : List ParsedOutcome} {o : ParsedOutcome} {s s' : StoreState}
    (h : Kept done (o :: rest) s) (hidle : s.conn.txn = none) (hrec : recordOutcome f o s = (.ok (), s')) :
    Kept (done ++ [o]) rest s' := by
  obtain ⟨_, hp, _, hd⟩ := recordOutcome_spec hidle hrec
  have hblocks : ∀ slot, slot ≠ o.slot → slot ∉ o.blocks.map (·.slot) := by
    intro slot hne hm
    obtain ⟨b, hb, rfl⟩ := List.mem_map.1 hm
    exact hne (by rw [blocks_slot hb]; rfl)
  constructor
  · intro b hb hmem
    rw [hp] at hmem ⊢
    rcases lastOf_concat.1 hb with rfl | ⟨hb, hne⟩
    · exact lastOf_concat.2 (Or.inl rfl)
    · rw [List.map_append, List.mem_append] at hmem
      have hold := hmem.resolve_right (hblocks b.slot hne)
      exact (lastOf_append_left (hblocks b.slot hne)).2 (h.pending b hb hold)
  · intro b hb hrest hmem
    rw [hp, List.map_append, List.mem_append, not_or] at hmem
    rcases lastOf_concat.1 hb with rfl | ⟨hb, hne⟩
    · exact absurd (List.mem_singleton_self _) hmem.2
    · refine (Stored.congr (hd _)).2 (h.stored b hb ?_ hmem.1)
      rw [List.map_cons, List.mem_cons, not_or]
      exact ⟨hne, hrest⟩

/-- A flush that loses nothing keeps the invariant. -/
theorem Kept.flush {f : Faults} {done rest : List ParsedOutcome} {s : StoreState} (h : Kept done rest s)
    (hidle : s.conn.txn = none)
    (hkeep : Commits f s.pending s.conn ∨
      ∀ b ∈ s.pending, LastIngested done b → b.slot ∉ rest.map (·.slot) → Stored b s.conn.store) :
    Kept done rest (flushPending f s).2 := by
  obtain ⟨_, _, hd, hrej, hcom⟩ := flushPending_spec f hidle
  refine ⟨fun b _ hm => absurd hm List.not_mem_nil, fun b hb hrest _ => ?_⟩
  by_cases hm : b.slot ∈ s.pending.map (·.slot)
  · have hlast := h.pending b hb hm
    by_cases hc : Commits f s.pending s.conn
    · exact hcom hc b hlast
    · rw [(hrej hc).2]
      exact hkeep.resolve_left hc b hlast.mem hb hrest
  · exact (Stored.congr (hd _ (slot_toInt64_notMem hm))).2 (h.stored b hb hrest hm)

/-- The loop keeps the invariant when its flushes lose nothing. -/
theorem storeLoop_kept {f : Faults} {batchSize : ℕ} {c : Conn Store} (hidle : c.txn = none)
    {outcomes : List ParsedOutcome} (hkeep : FlushesKeep f batchSize outcomes c) {done rest : List ParsedOutcome}
    (hsplit : outcomes = done ++ rest) {s : StoreState} (h : storeLoop f batchSize done (.init c) = (.ok (), s)) :
    Kept done rest s := by
  induction done using List.reverseRecOn generalizing rest s with
  | nil => exact ⟨fun _ hb => absurd hb not_lastOf_nil, fun _ hb => absurd hb not_lastOf_nil⟩
  | append_singleton done o ih =>
    rw [List.append_assoc, List.singleton_append] at hsplit
    obtain ⟨t, hpre, hlast⟩ := storeLoop_append.1 h
    have hti := (storeLoop_frame (s := .init c) hidle hpre).1
    obtain ⟨t', hrec, rfl⟩ := storeOutcome_eq_ok.1 (storeLoop_singleton.1 hlast)
    have hkept := (ih hsplit hpre).record hti hrec
    split
    · rename_i hfull
      exact hkept.flush (recordOutcome_spec hti hrec).1 (hkeep done o rest t t' hsplit hpre hrec hfull)
    · exact hkept

/-! ## The stage -/

/-- A stage that succeeds: its loop does, and so does the last flush if a batch is pending. -/
theorem storeStage_eq_ok {f : Faults} {batchSize : ℕ} {outcomes : List ParsedOutcome} {c : Conn Store}
    {counts : ℕ × ℕ × ℕ × ℕ} {s : StoreState} (h : storeStage f batchSize outcomes c = (.ok counts, s)) :
    ∃ t, storeLoop f batchSize outcomes (.init c) = (.ok (), t) ∧
      ((t.pending = [] ∧ s = t) ∨ flushPending f t = (.ok (), s)) := by
  unfold storeStage at h
  rcases hloop : storeLoop f batchSize outcomes (.init c) with ⟨_ | _, t⟩
  · rw [hloop] at h
    cases h
  · rw [hloop] at h
    refine ⟨t, rfl, ?_⟩
    simp only at h
    split at h
    · rename_i hempty
      cases h
      exact Or.inl ⟨List.isEmpty_iff.1 hempty, rfl⟩
    · rcases hflush : flushPending f t with ⟨_ | _, s'⟩
      · rw [hflush] at h
        cases h
      · rw [hflush] at h
        cases h
        exact Or.inr rfl

/-- After the loop, the stage keeps the statuses and the data of slots that are not pending. -/
theorem storeStage_frame {f : Faults} {t s : StoreState} (hidle : t.conn.txn = none)
    (h : (t.pending = [] ∧ s = t) ∨ flushPending f t = (.ok (), s)) :
    s.conn.store.ingestionStatus = t.conn.store.ingestionStatus ∧
    ∀ b : ParsedBlock, b.slot ∉ t.pending.map (·.slot) → (Stored b s.conn.store ↔ Stored b t.conn.store) := by
  rcases h with ⟨_, rfl⟩ | hflush
  · exact ⟨rfl, fun _ _ => Iff.rfl⟩
  · obtain ⟨_, hs, hd, _⟩ := flushPending_spec f hidle
    rw [hflush] at hs hd
    exact ⟨hs, fun b hb => Stored.congr (hd _ (slot_toInt64_notMem hb))⟩

/-- When no flush loses a block, none is lost silently. -/
theorem FlushesKeep.noSilentLoss {f : Faults} {batchSize : ℕ} {outcomes : List ParsedOutcome} {c : Conn Store}
    {t s : StoreState} (hkeep : FlushesKeep f batchSize outcomes c) (hidle : c.txn = none)
    (hloop : storeLoop f batchSize outcomes (.init c) = (.ok (), t))
    (hend : (t.pending = [] ∧ s = t) ∨ flushPending f t = (.ok (), s)) : NoSilentLoss outcomes s.conn.store := by
  have hti := (storeLoop_frame (s := .init c) hidle hloop).1
  have hkept := storeLoop_kept hidle hkeep (List.append_nil outcomes).symm hloop
  obtain ⟨hstatus, hstored⟩ := storeStage_frame hti hend
  rintro slot hslot ⟨note, hrow⟩
  obtain ⟨o, ho, rfl⟩ := exists_lastOf hslot
  -- the recorded status is that of the last outcome
  have hmem : (⟨o.slot.toInt64, "ingested", note⟩ : IngestionStatusRow) ∈
      t.conn.store.ingestionStatus.rows.filter (·.slot = o.slot.toInt64) :=
    List.mem_filter.2 ⟨hstatus ▸ hrow, decide_eq_true rfl⟩
  rw [storeLoop_status hidle hloop ho, List.mem_singleton] at hmem
  have hingested : o.status.1 = "ingested" := (congrArg IngestionStatusRow.status hmem).symm
  cases o with
  | skipped slot => exact absurd hingested (show "skipped" ≠ "ingested" by decide)
  | failed slot error => exact absurd hingested (show "failed" ≠ "ingested" by decide)
  | ingested b =>
    refine ⟨b, ho, rfl, ?_⟩
    by_cases hm : b.slot ∈ t.pending.map (·.slot)
    · have hne : t.pending ≠ [] := fun he => by
        rw [he] at hm
        cases hm
      have hflush := hend.resolve_left fun he => hne he.1
      obtain ⟨_, _, _, hrej, hcom⟩ := flushPending_spec f hti
      rw [hflush] at hrej hcom
      have hcommit : Commits f t.pending t.conn := by
        by_contra hno
        exact (hrej hno).1 rfl
      exact hcom hcommit b (hkept.pending b ho hm)
    · exact (hstored b hm).2 (hkept.stored b ho List.not_mem_nil hm)

/-- When no block is lost silently, no flush loses one. -/
theorem NoSilentLoss.flushesKeep {f : Faults} {batchSize : ℕ} {outcomes : List ParsedOutcome} {c : Conn Store}
    {t s : StoreState} (h : NoSilentLoss outcomes s.conn.store) (hidle : c.txn = none)
    (hloop : storeLoop f batchSize outcomes (.init c) = (.ok (), t))
    (hend : (t.pending = [] ∧ s = t) ∨ flushPending f t = (.ok (), s)) : FlushesKeep f batchSize outcomes c := by
  intro pre o rest u u' hsplit hpre hrec hfull
  by_cases hcommit : Commits f u'.pending u'.conn
  · exact Or.inl hcommit
  apply Or.inr
  intro b hb hlast hrest
  have hui := (storeLoop_frame (s := .init c) hidle hpre).1
  have hui' := (recordOutcome_spec hui hrec).1
  obtain ⟨hfi, _, _, hrej, _⟩ := flushPending_spec f hui'
  -- the run goes on from the rejected flush with an empty batch
  have hrun : storeLoop f batchSize rest (flushPending f u').2 = (.ok (), t) := by
    rw [hsplit, ← List.singleton_append, ← List.append_assoc] at hloop
    obtain ⟨v, hv, hrest'⟩ := storeLoop_append.1 hloop
    obtain ⟨w, hw, hv'⟩ := storeLoop_append.1 hv
    rw [hpre] at hw
    cases hw
    obtain ⟨x, hx, rfl⟩ := storeOutcome_eq_ok.1 (storeLoop_singleton.1 hv')
    rw [hrec] at hx
    cases hx
    rwa [if_pos hfull] at hrest'
  obtain ⟨hti, hpend, hdata⟩ := storeLoop_frame hfi hrun
  obtain ⟨hstatus, hstored⟩ := storeStage_frame hti hend
  have hnotpend : b.slot ∉ t.pending.map (·.slot) := by
    intro hm
    obtain ⟨b', hb', he⟩ := List.mem_map.1 hm
    rcases hpend b' hb' with hb' | hb'
    · cases hb'
    · exact hrest (List.mem_map.2 ⟨_, hb', he⟩)
  have hsame : Stored b t.conn.store ↔ Stored b u'.conn.store := by
    rw [← (hrej hcommit).2]
    refine Stored.congr (hdata _ List.not_mem_nil fun hm => ?_)
    obtain ⟨o', ho', he⟩ := List.mem_map.1 hm
    exact hrest (List.mem_map.2 ⟨o', ho', toInt64_injective he⟩)
  rw [← hsame, ← hstored b hnotpend]
  -- the slot is recorded as ingested at the end, with `b` as its last outcome
  have hlast' : LastIngested outcomes b := by
    rw [hsplit, ← List.singleton_append, ← List.append_assoc]
    exact (lastOf_append_left hrest).2 hlast
  have hrow := List.mem_singleton_self (statusRow (.ingested b))
  rw [← storeLoop_status hidle hloop hlast', ← hstatus] at hrow
  exact h.stored hlast' (List.mem_of_mem_filter hrow)

/-- **When the store stage loses nothing silently.** If the stage succeeds, every slot it recorded as ingested has its
block stored exactly when every flush in the middle of the run is committed or loses nothing. -/
theorem storeStage_noSilentLoss (f : Faults) (batchSize : ℕ) (outcomes : List ParsedOutcome) (st : Store) (n : ℕ)
    (counts : ℕ × ℕ × ℕ × ℕ) (s : StoreState) (h : storeStage f batchSize outcomes ⟨st, none, n⟩ = (.ok counts, s)) :
    NoSilentLoss outcomes s.conn.store ↔ FlushesKeep f batchSize outcomes ⟨st, none, n⟩ := by
  obtain ⟨t, hloop, hend⟩ := storeStage_eq_ok h
  exact ⟨fun hno => hno.flushesKeep rfl hloop hend, fun hkeep => hkeep.noSilentLoss rfl hloop hend⟩

/-- Three slots with two blocks, in batches of one block. -/
def twoBlocks : List ParsedOutcome :=
  [.ingested (parseBlock (conflictBlock 1 "a" "b")), .skipped 2, .ingested (parseBlock (conflictBlock 3 "c" "d"))]

theorem flushesKeep_twoBlocks : FlushesKeep (fun _ => false) 1 twoBlocks ⟨.empty, none, 0⟩ := by
  intro pre o rest s s' hsplit hloop hrec hfull
  obtain rfl : (storeLoop (fun _ => false) 1 pre (.init ⟨.empty, none, 0⟩)).2 = s := congrArg Prod.snd hloop
  obtain rfl : (recordOutcome (fun _ => false) o _).2 = s' := congrArg Prod.snd hrec
  -- a flush that succeeds is committed
  have hcommits {t : StoreState} (hidle : t.conn.txn = none) (hok : (flushPending (fun _ => false) t).1 = .ok ()) :
      Commits (fun _ => false) t.pending t.conn :=
    Classical.byContradiction fun hno => ((flushPending_spec (fun _ => false) hidle).2.2.2.1 hno).1 hok
  match pre with
  | [] =>
    cases hsplit
    exact .inl (hcommits rfl rfl)
  | [_] =>
    cases hsplit
    cases Nat.not_succ_le_zero _ hfull
  | [_, _] =>
    cases hsplit
    exact .inl (hcommits rfl rfl)
  | _ :: _ :: _ :: _ :: _ => cases hsplit

/-- Without faults both blocks are stored. -/
theorem storeStage_noSilentLoss_example :
    let st := (storeStage (fun _ => false) 1 twoBlocks ⟨.empty, none, 0⟩).2.conn.store
    NoSilentLoss twoBlocks st ∧ Stored (parseBlock (conflictBlock 1 "a" "b")) st ∧
      Stored (parseBlock (conflictBlock 3 "c" "d")) st := by
  intro st
  have hno := (storeStage_noSilentLoss (fun _ => false) 1 twoBlocks .empty 0 (2, 1, 0, 4) _ rfl).2 flushesKeep_twoBlocks
  refine ⟨hno, hno.stored ⟨[], _, rfl, ?_⟩ ?_, hno.stored ⟨[_, _], [], rfl, List.not_mem_nil⟩ ?_⟩
  all_goals decide +kernel

/-- A block without transactions. -/
def emptyBlock : ParsedBlock := parseBlock { slot := 1, blockTime := none, transactions := [] }

/-- With batches of one block, a flush whose `BEGIN` fails loses its block: the stage succeeds and counts the block, the
slot is recorded as ingested, and nothing of it is stored. -/
theorem storeStage_silentLoss :
    ∃ s, storeStage (fun n => n = 1) 1 [.ingested emptyBlock] ⟨.empty, none, 0⟩ = (.ok (1, 0, 0, 0), s) ∧
      s.conn.store.ingestionStatus.rows = [⟨1, "ingested", none⟩] ∧ s.conn.store.blocks.rows = [] ∧
      ¬NoSilentLoss [.ingested emptyBlock] s.conn.store := by
  refine ⟨_, rfl, rfl, rfl, fun h => ?_⟩
  obtain ⟨b, _, _, hb, _⟩ := h 1 (List.mem_singleton_self _) ⟨none, List.mem_singleton_self _⟩
  cases hb

end Tenso.Cli
