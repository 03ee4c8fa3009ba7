import Mathlib.Data.List.GetD
import Tenso.Cli.FlushAtomic
import Tenso.Storage.Query

/-!
# Stored depth and computed depth

Over a run of flushes that are all accepted, the rows of each slot carry the steps of its latest block (`Tracks`), so
the depth of a slot range is the largest depth of the latest blocks in it (`queryContentionSummary_depth`).

A step and a depth are `INTEGER`s: from `2 ^ 31` steps on the query fails (`queryContentionSummary_overflow`).
-/

namespace Tenso.Cli

open Ingest (DecodedBlock DecodedTransaction)
open Storage

/-- Flush one batch after the other, up to the first error. -/
def flushAll (f : Faults) : List (List DecodedBlock) → Conn Store → Except DbError Unit × Conn Store
  | [], c => (.ok (), c)
  | blocks :: batches, c =>
    match flushParsedBatch f (blocks.map parseBlock) c with
    | (.ok (), c) => flushAll f batches c
    | (.error e, c) => (.error e, c)

/-- The last block of each slot. -/
def latest : List DecodedBlock → List DecodedBlock
  | [] => []
  | d :: blocks => if d.slot ∈ blocks.map (·.slot) then latest blocks else d :: latest blocks

/-- The depth of a block: that of its schedule. -/
def blockDepth (d : DecodedBlock) : ℕ := (Contention.schedule (d.transactions.map txLocks)).depth

/-- The largest depth of the latest blocks of a slot range, `0` if there is none. -/
def maxDepth (blocks : List DecodedBlock) (fromSlot toSlot : UInt64) : ℕ :=
  (((latest blocks).filter fun d => fromSlot ≤ d.slot ∧ d.slot ≤ toSlot).map blockDepth).max?.getD 0

theorem mem_latest {d : DecodedBlock} : ∀ {blocks : List DecodedBlock},
    d ∈ latest blocks ↔ ∃ pre post, blocks = pre ++ d :: post ∧ d.slot ∉ post.map (·.slot)
  | [] => by simp [latest]
  | d' :: blocks => by
    have ih : d ∈ latest blocks ↔ _ := mem_latest
    have hcons : (∃ pre post, d' :: blocks = pre ++ d :: post ∧ d.slot ∉ post.map (·.slot)) ↔
        (d = d' ∧ d'.slot ∉ blocks.map (·.slot)) ∨ d ∈ latest blocks := by
      rw [ih]
      constructor
      · rintro ⟨_ | ⟨a, pre⟩, post, he, hpost⟩
        · obtain ⟨rfl, rfl⟩ := List.cons.inj he
          exact Or.inl ⟨rfl, hpost⟩
        · obtain ⟨rfl, rfl⟩ := List.cons.inj he
          exact Or.inr ⟨pre, post, rfl, hpost⟩
      · rintro (⟨rfl, hd⟩ | ⟨pre, post, rfl, hpost⟩)
        · exact ⟨[], blocks, rfl, hd⟩
        · exact ⟨d' :: pre, post, rfl, hpost⟩
    rw [hcons, latest]
    split
    · rename_i hm
      simp [hm]
    · rename_i hm
      simp [hm]

/-! ## The rows track the latest blocks -/

/-- The signatures and steps that a block leaves in the store. -/
def stepRows (d : DecodedBlock) : List (String × Option Int32) :=
  (scheduledSteps d).map fun u => (u.1, some (Int32.ofNat u.2))

/-- The rows of each slot carry the steps of its latest block, and there are no other rows. -/
structure Tracks (blocks : List DecodedBlock) (st : Store) : Prop where
  live : ∀ d ∈ latest blocks, stepsOf st d.slot.toInt64 = stepRows d
  other : ∀ slot, slot ∉ blocks.map (·.slot.toInt64) → stepsOf st slot = []

theorem tracks_empty : Tracks [] .empty := ⟨fun _ h => absurd h List.not_mem_nil, fun _ _ => rfl⟩

theorem stepsOf_frame {blocks : List DecodedBlock} {st st' : Store} (h : Flushed blocks st st') {slot : Int64}
    (hs : slot ∉ blocks.map (·.slot.toInt64)) : stepsOf st' slot = stepsOf st slot := by
  rw [stepsOf, (h.frame hs).transactions, stepsOf]

/-- A latest block is one of the last flush, or an earlier one whose slot the last flush does not name. -/
theorem mem_latest_append {done blocks : List DecodedBlock} {d : DecodedBlock} (hd : d ∈ latest (done ++ blocks)) :
    (∃ pre post, blocks = pre ++ d :: post ∧ d.slot ∉ post.map (·.slot)) ∨
    (d ∈ latest done ∧ d.slot.toInt64 ∉ blocks.map (·.slot.toInt64)) := by
  obtain ⟨pre, post, he, hlast⟩ := mem_latest.1 hd
  rcases List.append_eq_append_iff.1 he with ⟨pre', rfl, hb⟩ | ⟨post', rfl, hb⟩
  · exact Or.inl ⟨pre', post, hb, hlast⟩
  · cases post' with
    | nil => exact Or.inl ⟨[], post, hb.symm, hlast⟩
    | cons d' post' =>
      obtain ⟨rfl, rfl⟩ := List.cons.inj hb
      rw [List.append_eq, List.map_append, List.mem_append, not_or] at hlast
      refine Or.inr ⟨mem_latest.2 ⟨pre, post', rfl, hlast.1⟩, fun hm => ?_⟩
      obtain ⟨d', hd', hde⟩ := List.mem_map.1 hm
      exact hlast.2 (toInt64_injective hde ▸ List.mem_map_of_mem hd')

/-- A run of accepted flushes keeps what every accepted flush keeps. -/
theorem flushAll_invariant {f : Faults} {I : List DecodedBlock → Store → Prop}
    (hstep : ∀ done blocks st st', I done st → Flushed blocks st st' → I (done ++ blocks) st') :
    ∀ {batches : List (List DecodedBlock)} {done : List DecodedBlock} {st : Store} {n : ℕ} {c : Conn Store},
      I done st → flushAll f batches ⟨st, none, n⟩ = (.ok (), c) → I (done ++ batches.flatten) c.store
  | [], done, st, n, c, h, hrun => by
    cases hrun
    rwa [List.flatten_nil, List.append_nil]
  | blocks :: batches, done, st, n, c, h, hrun => by
    rw [flushAll] at hrun
    rcases flush_cases f blocks st n with ⟨_, _, he, _⟩ | ⟨st', _, he, _, _, hf⟩ | ⟨_, _, _, _, _, he, _⟩
    · rw [he] at hrun
      cases hrun
    · rw [he] at hrun
      have := flushAll_invariant hstep (hstep done blocks st st' h hf) hrun
      rwa [List.flatten_cons, ← List.append_assoc]
    · rw [he] at hrun
      cases hrun

/-- An accepted flush keeps track. -/
theorem Tracks.flushed {done blocks : List DecodedBlock} {st st' : Store} (h : Tracks done st)
    (hf : Flushed blocks st st') : Tracks (done ++ blocks) st' := by
  constructor
  · intro d hd
    rcases mem_latest_append hd with ⟨pre, post, rfl, hlast⟩ | ⟨hd, hs⟩
    · exact hf.live hlast
    · rw [stepsOf_frame hf hs]
      exact h.live d hd
  · intro slot hs
    rw [List.map_append, List.mem_append, not_or] at hs
    rw [stepsOf_frame hf hs.2]
    exact h.other slot hs.1

/-- A run of accepted flushes keeps track. -/
theorem flushAll_tracks {f : Faults} {batches : List (List DecodedBlock)} {done : List DecodedBlock}
    {st : Store} {n : ℕ} {c : Conn Store} (h : Tracks done st) (hrun : flushAll f batches ⟨st, none, n⟩ = (.ok (), c)) :
    Tracks (done ++ batches.flatten) c.store :=
  flushAll_invariant (fun _ _ _ _ h hf => h.flushed hf) h hrun

/-! ## The depth of a range -/

/-- The steps of a block are below its depth, and reach it. -/
theorem blockDepth_spec (d : DecodedBlock) : (∀ u ∈ scheduledSteps d, u.2 < blockDepth d) ∧
    (0 < blockDepth d → ∃ u ∈ scheduledSteps d, u.2 + 1 = blockDepth d) := by
  have hsteps : (scheduledSteps d).map (·.2) = (Contention.schedule (d.transactions.map txLocks)).steps :=
    List.map_snd_zip (Nat.le_of_eq (parseBlock_steps_length d))
  have hdepth := Contention.schedule_depth (d.transactions.map txLocks)
  rw [← blockDepth, ← hsteps] at hdepth
  constructor
  · intro u hu
    have hmem : u.2 ∈ (scheduledSteps d).map (·.2) := List.mem_map_of_mem hu
    cases hmax : ((scheduledSteps d).map (·.2)).max? with
    | none =>
      rw [List.max?_eq_none_iff] at hmax
      rw [hmax] at hmem
      cases hmem
    | some m =>
      rw [hmax] at hdepth
      have hle := (List.max?_eq_some_iff.1 hmax).2 _ hmem
      have hm : blockDepth d = m + 1 := hdepth
      omega
  · intro hpos
    cases hmax : ((scheduledSteps d).map (·.2)).max? with
    | none =>
      rw [hmax] at hdepth
      have : blockDepth d = 0 := hdepth
      omega
    | some m =>
      rw [hmax] at hdepth
      obtain ⟨u, hu, rfl⟩ := List.mem_map.1 (List.max?_eq_some_iff.1 hmax).1
      exact ⟨u, hu, hdepth.symm⟩

theorem mem_stepsOf {st : Store} {r : TransactionsRow} (hr : r ∈ st.transactions.rows) :
    (r.signature, r.step) ∈ stepsOf st r.slot :=
  List.mem_map.2 ⟨r, List.mem_filter.2 ⟨hr, decide_eq_true rfl⟩, rfl⟩

/-- The steps that a range query sees are those of the latest blocks in the range. -/
theorem Tracks.mem_steps {blocks : List DecodedBlock} {st : Store} (h : Tracks blocks st) {p : Int64 → Bool} {x : ℤ} :
    x ∈ (st.transactions.rows.filter fun r => p r.slot).filterMap (fun r => r.step.map Int32.toInt) ↔
      ∃ d ∈ latest blocks, p d.slot.toInt64 = true ∧ ∃ u ∈ scheduledSteps d, x = (Int32.ofNat u.2).toInt := by
  simp only [List.mem_filterMap, List.mem_filter, Option.map_eq_some_iff]
  constructor
  · rintro ⟨r, ⟨hr, hp⟩, step, hstep, rfl⟩
    have hmem := mem_stepsOf hr
    have hslot : r.slot ∈ blocks.map (·.slot.toInt64) := by
      by_contra hno
      rw [h.other _ hno] at hmem
      cases hmem
    obtain ⟨pre, d, post, hsplit, hd, hlast⟩ := exists_last hslot
    have hlatest : d ∈ latest blocks := mem_latest.2 ⟨pre, post, hsplit, hlast⟩
    rw [← hd, h.live d hlatest] at hmem
    obtain ⟨u, hu, he⟩ := List.mem_map.1 hmem
    rw [Prod.mk.injEq, hstep, Option.some.injEq] at he
    exact ⟨d, hlatest, hd ▸ hp, u, hu, by rw [he.2]⟩
  · rintro ⟨d, hd, hp, u, hu, rfl⟩
    have hmem : (u.1, some (Int32.ofNat u.2)) ∈ stepsOf st d.slot.toInt64 := by
      rw [h.live d hd]
      exact List.mem_map.2 ⟨u, hu, rfl⟩
    obtain ⟨r, hr, he⟩ := List.mem_map.1 hmem
    obtain ⟨hr, hslot⟩ := List.mem_filter.1 hr
    refine ⟨r, ⟨hr, ?_⟩, _, (Prod.mk.inj he).2, rfl⟩
    rw [of_decide_eq_true hslot]
    exact hp

theorem blockDepth_le_maxDepth {blocks : List DecodedBlock} {fromSlot toSlot : UInt64} {d : DecodedBlock}
    (hd : d ∈ latest blocks) (hr : fromSlot ≤ d.slot ∧ d.slot ≤ toSlot) :
    blockDepth d ≤ maxDepth blocks fromSlot toSlot :=
  List.le_max?_getD_of_mem (List.mem_map_of_mem (List.mem_filter.2 ⟨hd, decide_eq_true hr⟩))

theorem exists_blockDepth_eq {blocks : List DecodedBlock} {fromSlot toSlot : UInt64}
    (hpos : 0 < maxDepth blocks fromSlot toSlot) :
    ∃ d ∈ latest blocks, (fromSlot ≤ d.slot ∧ d.slot ≤ toSlot) ∧ blockDepth d = maxDepth blocks fromSlot toSlot := by
  unfold maxDepth at hpos ⊢
  cases hmax : (((latest blocks).filter fun d => fromSlot ≤ d.slot ∧ d.slot ≤ toSlot).map blockDepth).max? with
  | none =>
    rw [hmax] at hpos
    exact absurd hpos (Nat.lt_irrefl 0)
  | some m =>
    obtain ⟨d, hd, rfl⟩ := List.mem_map.1 (List.max?_eq_some_iff.1 hmax).1
    obtain ⟨hd, hr⟩ := List.mem_filter.1 hd
    exact ⟨d, hd, of_decide_eq_true hr, rfl⟩

/-- Every step below the depth of a block is taken. -/
theorem exists_scheduledStep {d : DecodedBlock} {s : ℕ} (hs : s < blockDepth d) : ∃ u ∈ scheduledSteps d, u.2 = s := by
  obtain ⟨u, hu, hlast⟩ := (blockDepth_spec d).2 (by omega)
  obtain ⟨hlen, hstep⟩ := Contention.schedule_stepAt (d.transactions.map txLocks)
  have hsteps : (scheduledSteps d).map (·.2) = (Contention.schedule (d.transactions.map txLocks)).steps :=
    List.map_snd_zip (Nat.le_of_eq (parseBlock_steps_length d))
  have hget : ∀ i < (d.transactions.map txLocks).length,
      (Contention.schedule (d.transactions.map txLocks)).step i ∈ (scheduledSteps d).map (·.2) := by
    intro i hi
    rw [hsteps, Contention.ScheduleResult.step, List.getD_eq_getElem _ _ (hlen ▸ hi)]
    exact List.getElem_mem _
  -- the last step is that of a transaction, and the steps below it are all taken
  have hmem : u.2 ∈ (scheduledSteps d).map (·.2) := List.mem_map_of_mem hu
  rw [hsteps] at hmem
  obtain ⟨i, hi, he⟩ := List.mem_iff_getElem.1 hmem
  have hi' : i < (d.transactions.map txLocks).length := hlen ▸ hi
  have hui : (Contention.schedule (d.transactions.map txLocks)).step i = u.2 := by
    rw [Contention.ScheduleResult.step, List.getD_eq_getElem _ _ hi, he]
  obtain ⟨j, hj, hjs⟩ := ConflictOrder.exists_step_eq hstep i hi' s (by omega)
  obtain ⟨v, hv, hvs⟩ := List.mem_map.1 (hget j hj)
  exact ⟨v, hv, hvs.trans hjs⟩

/-- From a depth of `2 ^ 31` on, the largest step of a range is the largest `INTEGER`. -/
theorem Tracks.maxStep_overflow {blocks : List DecodedBlock} {st : Store} (h : Tracks blocks st)
    {fromSlot toSlot : UInt64} (hfrom : fromSlot.toNat < 2 ^ 63) (hto : toSlot.toNat < 2 ^ 63)
    (hdepth : 2 ^ 31 ≤ maxDepth blocks fromSlot toSlot) : rangeMaxStep fromSlot toSlot st = some (2 ^ 31 - 1) := by
  have hmem {x : ℤ} := h.mem_steps (p := between fromSlot toSlot) (x := x)
  obtain ⟨d, hd, hr, heq⟩ := exists_blockDepth_eq (by omega : 0 < maxDepth blocks fromSlot toSlot)
  obtain ⟨u, hu, hus⟩ := exists_scheduledStep (by omega : 2 ^ 31 - 1 < blockDepth d)
  refine List.max?_eq_some_iff.2 ⟨hmem.2 ⟨d, hd, (between_iff hfrom hto).2 hr, u, hu, ?_⟩, fun x hx => ?_⟩
  · rw [hus]
    exact ((toInt_ofNat_eq_iff (2 ^ 31 - 1)).2 (by omega)).symm
  · obtain ⟨_, _, _, v, _, rfl⟩ := hmem.1 hx
    have := Int32.toInt_lt (Int32.ofNat v.2)
    omega

/-- The largest step of a range is one less than the largest depth. -/
theorem Tracks.maxStep_eq {blocks : List DecodedBlock} {st : Store} (h : Tracks blocks st) {fromSlot toSlot : UInt64}
    (hfrom : fromSlot.toNat < 2 ^ 63) (hto : toSlot.toNat < 2 ^ 63)
    (hdepth : maxDepth blocks fromSlot toSlot < 2 ^ 31) :
    (rangeMaxStep fromSlot toSlot st).getD (-1) + 1 = maxDepth blocks fromSlot toSlot := by
  have hmem {x : ℤ} := h.mem_steps (p := between fromSlot toSlot) (x := x)
  simp only [between_iff hfrom hto] at hmem
  have hstep : ∀ d ∈ latest blocks, (fromSlot ≤ d.slot ∧ d.slot ≤ toSlot) → ∀ u ∈ scheduledSteps d,
      (Int32.ofNat u.2).toInt = u.2 ∧ u.2 < maxDepth blocks fromSlot toSlot := by
    intro d hd hr u hu
    have hlt := Nat.lt_of_lt_of_le ((blockDepth_spec d).1 u hu) (blockDepth_le_maxDepth hd hr)
    exact ⟨(toInt_ofNat_eq_iff u.2).2 (Nat.lt_trans hlt hdepth), hlt⟩
  have htop : 0 < maxDepth blocks fromSlot toSlot → (maxDepth blocks fromSlot toSlot : ℤ) - 1 ∈
      (st.transactions.rows.filter fun r => between fromSlot toSlot r.slot).filterMap
        fun r => r.step.map Int32.toInt := by
    intro hpos
    obtain ⟨d, hd, hr, heq⟩ := exists_blockDepth_eq hpos
    obtain ⟨u, hu, hlast⟩ := (blockDepth_spec d).2 (heq ▸ hpos)
    refine hmem.2 ⟨d, hd, hr, u, hu, ?_⟩
    rw [(hstep d hd hr u hu).1]
    omega
  unfold rangeMaxStep maxStep
  cases hmax : ((st.transactions.rows.filter fun r => between fromSlot toSlot r.slot).filterMap
      fun r => r.step.map Int32.toInt).max? with
  | none =>
    rw [List.max?_eq_none_iff] at hmax
    rw [hmax] at htop
    show (-1 : ℤ) + 1 = _
    have : ¬0 < maxDepth blocks fromSlot toSlot := fun hpos => absurd (htop hpos) List.not_mem_nil
    omega
  | some m =>
    obtain ⟨hm, hle⟩ := List.max?_eq_some_iff.1 hmax
    obtain ⟨d, hd, hr, u, hu, rfl⟩ := hmem.1 hm
    obtain ⟨hu', hlt⟩ := hstep d hd hr u hu
    have := hle _ (htop (Nat.lt_of_le_of_lt (Nat.zero_le _) hlt))
    show (Int32.ofNat u.2).toInt + 1 = _
    omega

/-- **Stored depth is computed depth.** After a run of accepted flushes on an empty store, the depth of a slot range is
the largest depth of the latest blocks in it, as long as that is below `2 ^ 31`. -/
theorem queryContentionSummary_depth (ord : HashMap.IterOrder) (f : Faults) (batches : List (List DecodedBlock)) (n : ℕ)
    (c : Conn Store) (hrun : flushAll f batches ⟨.empty, none, n⟩ = (.ok (), c)) (fromSlot toSlot : UInt64)
    (hle : fromSlot ≤ toSlot) (hto : toSlot.toNat < 2 ^ 63)
    (hdepth : maxDepth batches.flatten fromSlot toSlot < 2 ^ 31) :
    ∃ s, queryContentionSummary ord fromSlot toSlot c.store = .ok s ∧
      s.depth.toNat = maxDepth batches.flatten fromSlot toSlot := by
  have htracks := flushAll_tracks tracks_empty hrun
  rw [List.nil_append] at htracks
  have hfrom : fromSlot.toNat < 2 ^ 63 := Nat.lt_of_le_of_lt (UInt64.le_iff_toNat_le.1 hle) hto
  have hmax := htracks.maxStep_eq hfrom hto hdepth
  have hadd : addInteger ((rangeMaxStep fromSlot toSlot c.store).getD (-1)) 1 =
      .ok (maxDepth batches.flatten fromSlot toSlot) := by
    rw [addInteger, hmax, if_pos (by omega)]
  obtain ⟨s, hs, hsd⟩ := queryContentionSummary_eq_ok hadd
  refine ⟨s, hs, ?_⟩
  have := Netting.toNat_ofInt (n := max (maxDepth batches.flatten fromSlot toSlot) 0) (by omega) (by omega)
  rw [hsd]
  omega

/-- Slot 1 is flushed once more, with a conflict: the depth of the range is 2. -/
theorem queryContentionSummary_depth_example : ∃ s,
    queryContentionSummary .stored 1 2
      (flushAll (fun _ => false) [[oneTxBlock], [conflictBlock 1 "sig" "sig2", conflictBlock 2 "sig3" "sig4"]]
        ⟨.empty, none, 0⟩).2.store = .ok s ∧ s.depth.toNat = 2 :=
  queryContentionSummary_depth .stored (fun _ => false)
    [[oneTxBlock], [conflictBlock 1 "sig" "sig2", conflictBlock 2 "sig3" "sig4"]] 0 _ rfl 1 2 (by decide) (by decide)
    (by decide)

/-! ## A chain of conflicts -/

/-- A transaction that writes `account`. -/
def chainTx (i : ℕ) : DecodedTransaction :=
  ⟨String.ofList (List.replicate i 'a'), 1, none, [], [⟨"account", true⟩], [], false⟩

/-- A block of `n` transactions that all write one account. -/
def chainBlock (n : ℕ) : DecodedBlock := { slot := 1, blockTime := none, transactions := (List.range n).map chainTx }

theorem chainTx_signature_injective : Function.Injective fun i => (chainTx i).signature := by
  intro i j h
  have := congrArg String.toList h
  simp only [chainTx, String.toList_ofList] at this
  simpa using congrArg List.length this

/-- The chain has one transaction a step. -/
theorem chain_steps (n : ℕ) : (Contention.schedule ((chainBlock n).transactions.map txLocks)).steps = List.range n := by
  obtain ⟨hlen, hstep⟩ := Contention.schedule_stepAt ((chainBlock n).transactions.map txLocks)
  have hn : ((chainBlock n).transactions.map txLocks).length = n := by simp [chainBlock]
  rw [hn] at hlen hstep
  have hconf : ∀ i < n, ∀ j < i, Contention.ConflictAt ((chainBlock n).transactions.map txLocks) j i := by
    intro i hi j hj
    refine ⟨txLocks (chainTx j), txLocks (chainTx i), ?_, ?_, ⟨"account", true⟩, List.mem_singleton_self _,
      ⟨"account", true⟩, List.mem_singleton_self _, rfl, Or.inl rfl⟩
    · simp [chainBlock, Nat.lt_trans hj hi]
    · simp [chainBlock, hi]
  have hid := ConflictOrder.stepAt_chain hstep hconf
  refine List.ext_getElem (by rw [hlen, List.length_range]) fun i hi _ => ?_
  have := hid i (hlen ▸ hi)
  rw [Contention.ScheduleResult.step, List.getD_eq_getElem _ _ hi] at this
  rw [this, List.getElem_range]

theorem chain_depth (n : ℕ) : blockDepth (chainBlock (n + 1)) = n + 1 := by
  rw [blockDepth, Contention.schedule_depth, chain_steps]
  have : (List.range (n + 1)).max? = some n := by
    rw [List.max?_eq_some_iff]
    exact ⟨List.mem_range.2 (Nat.lt_succ_self n), fun i hi => Nat.le_of_lt_succ (List.mem_range.1 hi)⟩
  rw [this]
  rfl

/-- The chain can be stored. -/
theorem chain_valid (n : ℕ) : Valid .empty (slotRows [chainBlock n]) := by
  have hsigs : ((newTransactions (parseBlock (chainBlock n)).slotRow).map (·.signature)).Nodup := by
    rw [newTransactions_signatures, chainBlock, List.map_map]
    exact List.nodup_range.map chainTx_signature_injective
  have hlocks : ((newAccountLocks (parseBlock (chainBlock n)).slotRow).map (·.key)).Nodup := by
    have : (newAccountLocks (parseBlock (chainBlock n)).slotRow).map (·.key) =
        (List.range n).map fun i => ((chainTx i).signature, "account") := by
      simp only [newAccountLocks, ParsedBlock.slotRow, parseBlock, chainBlock, List.flatMap_map, List.map_flatMap,
        chainTx, List.map_cons, List.map_nil]
      exact List.flatMap_pure_eq_map _ _
    rw [this]
    exact List.nodup_range.map fun i j h => chainTx_signature_injective (Prod.mk.inj h).1
  have htokens : tokenRows (parseBlock (chainBlock n)).slotRow = [] := by
    have : (parseBlock (chainBlock n)).tokenChanges = [] := by simp [parseBlock, chainBlock, chainTx]
    rw [tokenRows, ParsedBlock.slotRow, this]
    rfl
  have hnew : newTokenBalanceChanges (parseBlock (chainBlock n)).slotRow = [] := by
    rw [newTokenBalanceChanges, htokens, List.filterMap_nil]
  let stored : Store := { Store.empty with
    blocks := Store.empty.blocks.upsert (blocksRow (parseBlock (chainBlock n)).slotRow)
    transactions := ⟨_, hsigs⟩
    accountLocks := ⟨_, hlocks⟩ }
  refine ⟨stored, stored, ⟨?_, rfl, rfl, rfl, ?_, rfl, rfl⟩, rfl⟩
  · rw [InRange, htokens, hnew, List.map_nil]
  · rw [hnew]
    rfl

theorem chain_flushAll (n : ℕ) : ∃ c, flushAll (fun _ => false) [[chainBlock n]] ⟨.empty, none, 0⟩ = (.ok (), c) := by
  have hquiet : ∀ a k, Conn.Quiet (fun _ => false) a k := fun _ _ _ _ => rfl
  rcases flush_cases (fun _ => false) [chainBlock n] .empty 0 with ⟨_, _, _, hno⟩ | ⟨st', _, hrun, _⟩ |
    ⟨_, _, _, _, _, _, _, _, _, hf, _⟩
  · exact absurd ⟨hquiet _ _, chain_valid n⟩ hno
  · rw [flushAll, hrun]
    exact ⟨_, rfl⟩
  · cases hf

/-- A chain that is longer than the steps fit overflows the depth query. -/
theorem chain_overflow {n : ℕ} (hn : 2 ^ 31 ≤ n) {c : Conn Store}
    (hrun : flushAll (fun _ => false) [[chainBlock n]] ⟨.empty, none, 0⟩ = (.ok (), c)) :
    queryContentionSummary .stored 1 1 c.store = .error .outOfRange := by
  have htracks := flushAll_tracks tracks_empty hrun
  have hdepth : 2 ^ 31 ≤ maxDepth ([] ++ [[chainBlock n]].flatten) 1 1 := by
    obtain ⟨m, rfl⟩ : ∃ m, n = m + 1 := ⟨n - 1, by omega⟩
    have hle : blockDepth (chainBlock (m + 1)) ≤ maxDepth ([] ++ [[chainBlock (m + 1)]].flatten) 1 1 :=
      blockDepth_le_maxDepth (List.mem_singleton_self _) ⟨UInt64.le_refl 1, UInt64.le_refl 1⟩
    rw [chain_depth] at hle
    exact Nat.le_trans hn hle
  refine queryContentionSummary_eq_error ?_
  rw [htracks.maxStep_overflow (by decide) (by decide) hdepth, addInteger, if_neg]
  simp

/-- A block of `2 ^ 31 + 1` steps is flushed, and the query for its depth fails. -/
theorem queryContentionSummary_overflow :
    blockDepth (chainBlock (2 ^ 31 + 1)) = 2 ^ 31 + 1 ∧
    ∃ c, flushAll (fun _ => false) [[chainBlock (2 ^ 31 + 1)]] ⟨.empty, none, 0⟩ = (.ok (), c) ∧
      queryContentionSummary .stored 1 1 c.store = .error .outOfRange := by
  obtain ⟨c, hc⟩ := chain_flushAll (2 ^ 31 + 1)
  exact ⟨chain_depth (2 ^ 31), c, hc, chain_overflow (by omega) hc⟩

end Tenso.Cli
