import Mathlib.Order.MinMax
import Tenso.Contention.Defs
import Tenso.Lib.ConflictOrder

/-!
# The account states lose nothing

The locks of the scheduled transactions, each with the step of its transaction, form a log (`lockLog`). The account
states *summarise* the log (`Summarises`): the remembered write step is at least every step that was forgotten.

- One lock keeps the summary (`Summarises.record`), provided a write comes at a step not below the log of its account.
- The first pass finds the step that the log asks for (`earliestStep_foldl`), the second never fails and appends the
  transaction's locks to the log (`recordLock_foldlM`).
- Hence every run of the loop succeeds and its steps are the pairwise ones (`Inv`, `scheduleTx_inv`, `foldlM_inv`,
  `buildSchedule_eq_pairwise`).
-/

namespace Tenso.Contention

open ConflictOrder

/-! ## The log of locks -/

/-- A lock with the step of its transaction. -/
structure LockEvent where
  account : String
  isWritable : Bool
  step : Nat

/-- The events of one transaction. -/
def lockEvents (tx : TxLocks) (step : Nat) : List LockEvent :=
  tx.locks.map fun l => ⟨l.account, l.isWritable, step⟩

/-- The events of a list of scheduled transactions. -/
def lockLog (txs : List TxLocks) (steps : List Nat) : List LockEvent :=
  (txs.zip steps).flatMap fun p => lockEvents p.1 p.2

theorem lockLog_append {txs : List TxLocks} {steps : List Nat} (h : steps.length = txs.length) (tx : TxLocks)
    (s : Nat) : lockLog (txs ++ [tx]) (steps ++ [s]) = lockLog txs steps ++ lockEvents tx s := by
  simp [lockLog, List.zip_append h.symm]

/-- Every event belongs to a scheduled transaction. -/
theorem mem_lockLog {txs : List TxLocks} {steps : List Nat} (h : steps.length = txs.length) {e : LockEvent} :
    e ∈ lockLog txs steps ↔ ∃ j t, txs[j]? = some t ∧ ∃ l ∈ t.locks, e = ⟨l.account, l.isWritable, steps.getD j 0⟩ := by
  simp only [lockLog, lockEvents, List.mem_flatMap, List.mem_map]
  constructor
  · rintro ⟨⟨t, s⟩, hp, l, hl, rfl⟩
    obtain ⟨j, hj, he⟩ := List.mem_iff_getElem.1 hp
    rw [List.getElem_zip, Prod.mk.injEq] at he
    rw [List.length_zip, h, Nat.min_self] at hj
    refine ⟨j, t, by rw [List.getElem?_eq_getElem hj, he.1], l, hl, ?_⟩
    rw [List.getD_eq_getElem?_getD, List.getElem?_eq_getElem (h ▸ hj), he.2, Option.getD_some]
  · rintro ⟨j, t, hj, l, hl, rfl⟩
    obtain ⟨hlt, rfl⟩ := List.getElem?_eq_some_iff.1 hj
    refine ⟨(txs[j], steps.get ⟨j, h ▸ hlt⟩), ?_, l, hl, ?_⟩
    · exact List.mem_iff_getElem.2 ⟨j, by rw [List.length_zip, h, Nat.min_self]; exact hlt, List.getElem_zip⟩
    · rw [List.getD_eq_getElem?_getD, List.getElem?_eq_getElem (h ▸ hlt), Option.getD_some, List.get_eq_getElem]

/-! ## Summaries -/

/-- An account state stands for the events of its account: what it remembers happened, and what it forgot is
dominated by the last write. -/
structure Summary (log : List LockEvent) (a : String) (state : AccountState) : Prop where
  write_mem : ∀ w, state.lastWriteStep = some w → ∃ e ∈ log, e.account = a ∧ e.isWritable = true ∧ e.step = w
  read_mem : ∀ r ∈ state.readerStepsSinceWrite, ∃ e ∈ log, e.account = a ∧ e.step = r
  write_le : ∀ e ∈ log, e.account = a → e.isWritable = true → ∃ w, state.lastWriteStep = some w ∧ e.step ≤ w
  read_le : ∀ e ∈ log, e.account = a →
    (∃ w, state.lastWriteStep = some w ∧ e.step ≤ w) ∨ e.step ∈ state.readerStepsSinceWrite

/-- The account states of a run summarise its log. -/
def Summarises (m : AccountStates) (log : List LockEvent) : Prop :=
  ∀ a, Summary log a ((m.lookup a).getD {})

theorem summarises_nil : Summarises ∅ [] := fun a =>
  ⟨fun w h => by simp at h, fun r h => by simp at h, fun e h => absurd h List.not_mem_nil,
    fun e h => absurd h List.not_mem_nil⟩

/-- An event on another account does not matter. -/
theorem Summary.other {log : List LockEvent} {a : String} {state : AccountState} (h : Summary log a state)
    {e : LockEvent} (he : e.account ≠ a) : Summary (log ++ [e]) a state := by
  have hold : ∀ f ∈ log ++ [e], f.account = a → f ∈ log := fun f hf hfa => by
    rcases List.mem_append.1 hf with h1 | h1
    · exact h1
    · exact absurd (List.mem_singleton.1 h1 ▸ hfa) he
  refine ⟨fun w hw => ?_, fun r hr => ?_, fun f hf hfa => h.write_le f (hold f hf hfa) hfa,
    fun f hf hfa => h.read_le f (hold f hf hfa) hfa⟩
  · obtain ⟨f, hf, hfe⟩ := h.write_mem w hw
    exact ⟨f, List.mem_append_left _ hf, hfe⟩
  · obtain ⟨f, hf, hfe⟩ := h.read_mem r hr
    exact ⟨f, List.mem_append_left _ hf, hfe⟩

/-- A write forgets everything before it, which is sound when its step is not below the log of the account. -/
theorem Summary.write {log : List LockEvent} {a : String} {state : AccountState} {s : Nat}
    (hs : ∀ e ∈ log, e.account = a → e.step ≤ s) : Summary (log ++ [⟨a, true, s⟩]) a (state.record true s) := by
  have hle : ∀ e ∈ log ++ [⟨a, true, s⟩], e.account = a → e.step ≤ s := fun e he hea => by
    rcases List.mem_append.1 he with h1 | h1
    · exact hs e h1 hea
    · rw [List.mem_singleton.1 h1]
  refine ⟨fun w hw => ?_, fun r hr => by simp [AccountState.record] at hr, fun e he hea _ => ⟨s, rfl, hle e he hea⟩,
    fun e he hea => Or.inl ⟨s, rfl, hle e he hea⟩⟩
  obtain rfl : s = w := by simpa [AccountState.record] using hw
  exact ⟨_, List.mem_append_right _ (List.mem_singleton.2 rfl), rfl, rfl, rfl⟩

/-- A read is remembered. -/
theorem Summary.read {log : List LockEvent} {a : String} {state : AccountState} (h : Summary log a state) (s : Nat) :
    Summary (log ++ [⟨a, false, s⟩]) a (state.record false s) := by
  refine ⟨fun w hw => ?_, fun r hr => ?_, fun e he hea hew => ?_, fun e he hea => ?_⟩
  · obtain ⟨e, he, hee⟩ := h.write_mem w hw
    exact ⟨e, List.mem_append_left _ he, hee⟩
  · rcases List.mem_append.1 hr with h1 | h1
    · obtain ⟨e, he, hee⟩ := h.read_mem r h1
      exact ⟨e, List.mem_append_left _ he, hee⟩
    · exact ⟨_, List.mem_append_right _ (List.mem_singleton.2 rfl), rfl, (List.mem_singleton.1 h1).symm⟩
  · rcases List.mem_append.1 he with h1 | h1
    · exact h.write_le e h1 hea hew
    · rw [List.mem_singleton.1 h1] at hew
      cases hew
  · rcases List.mem_append.1 he with h1 | h1
    · exact (h.read_le e h1 hea).imp id (List.mem_append_left _)
    · rw [List.mem_singleton.1 h1]
      exact Or.inr (List.mem_append_right _ (List.mem_singleton.2 rfl))

/-- One lock keeps the summary; a write must not come below the log of its account. -/
theorem Summarises.record {m : AccountStates} {log : List LockEvent} (h : Summarises m log) {l : AccountLock} {s : Nat}
    {state : AccountState} (hl : m.lookup l.account = some state)
    (hs : l.isWritable = true → ∀ e ∈ log, e.account = l.account → e.step ≤ s) :
    Summarises (m.insert l.account (state.record l.isWritable s)) (log ++ [⟨l.account, l.isWritable, s⟩]) := by
  intro a
  by_cases ha : a = l.account
  · subst ha
    rw [AList.lookup_insert, Option.getD_some]
    cases hw : l.isWritable with
    | true => exact Summary.write (hs hw)
    | false =>
      have := h l.account
      rw [hl] at this
      exact this.read s
  · rw [AList.lookup_insert_ne ha]
    exact (h a).other (fun e => ha e.symm)

/-! ## The blocking step -/

/-- The larger of a step and an optional step. -/
theorem foldl_reader_max (rs : List Nat) : ∀ b : Option Nat,
    (∀ w, b = some w → ∃ k, rs.foldl (fun b r => some (b.elim r (max · r))) b = some k ∧ w ≤ k) ∧
    (∀ r ∈ rs, ∃ k, rs.foldl (fun b r => some (b.elim r (max · r))) b = some k ∧ r ≤ k) ∧
    (∀ k, rs.foldl (fun b r => some (b.elim r (max · r))) b = some k → b = some k ∨ k ∈ rs) := by
  induction rs with
  | nil => exact fun b => ⟨fun w h => ⟨w, h, le_rfl⟩, fun r h => absurd h List.not_mem_nil, fun k h => Or.inl h⟩
  | cons r rs ih =>
    intro b
    obtain ⟨h1, h2, h3⟩ := ih (some (b.elim r (max · r)))
    obtain ⟨k, hk, hle⟩ := h1 _ rfl
    refine ⟨?_, ?_, ?_⟩
    · rintro w rfl
      exact ⟨k, hk, (le_max_left w r).trans hle⟩
    · intro x hx
      rcases List.mem_cons.1 hx with rfl | hx
      · refine ⟨k, hk, le_trans ?_ hle⟩
        cases b with
        | none => exact le_rfl
        | some w => exact le_max_right w x
      · exact h2 x hx
    · intro j hj
      rcases h3 j hj with h | h
      · cases b with
        | none => exact Or.inr (by rw [← Option.some.inj h]; exact List.mem_cons_self)
        | some w =>
          have h' : max w r = j := Option.some.inj h
          rcases max_choice w r with hm | hm
          · exact Or.inl (by rw [← h', hm])
          · exact Or.inr (by rw [← h', hm]; exact List.mem_cons_self)
      · exact Or.inr (List.mem_cons_of_mem _ h)

/-- A lock and an event of the log that must stay in order. -/
def Blocks (e : LockEvent) (l : AccountLock) : Prop :=
  e.account = l.account ∧ (e.isWritable = true ∨ l.isWritable = true)

/-- Every blocking event of the log is at most the blocking step. -/
theorem Summary.le_blockingStep {log : List LockEvent} {l : AccountLock} {state : AccountState}
    (h : Summary log l.account state) {e : LockEvent} (he : e ∈ log) (hb : Blocks e l) :
    ∃ k, blockingStep l state = some k ∧ e.step ≤ k := by
  unfold blockingStep
  obtain ⟨hmax, hread, _⟩ := foldl_reader_max state.readerStepsSinceWrite state.lastWriteStep
  split
  · rcases h.read_le e he hb.1 with ⟨w, hw, hle⟩ | hr
    · obtain ⟨k, hk, hwk⟩ := hmax w hw
      exact ⟨k, hk, hle.trans hwk⟩
    · exact hread _ hr
  · rename_i hl
    exact h.write_le e he hb.1 (hb.2.resolve_right hl)

/-- The blocking step is the step of a blocking event. -/
theorem Summary.blockingStep_mem {log : List LockEvent} {l : AccountLock} {state : AccountState}
    (h : Summary log l.account state) {k : Nat} (hk : blockingStep l state = some k) :
    ∃ e ∈ log, Blocks e l ∧ e.step = k := by
  unfold blockingStep at hk
  obtain ⟨_, _, hmem⟩ := foldl_reader_max state.readerStepsSinceWrite state.lastWriteStep
  split at hk
  · rename_i hl
    rcases hmem k hk with hw | hr
    · obtain ⟨e, he, hea, _, hes⟩ := h.write_mem k hw
      exact ⟨e, he, ⟨hea, Or.inr hl⟩, hes⟩
    · obtain ⟨e, he, hea, hes⟩ := h.read_mem k hr
      exact ⟨e, he, ⟨hea, Or.inr hl⟩, hes⟩
  · obtain ⟨e, he, hea, hew, hes⟩ := h.write_mem k hk
    exact ⟨e, he, ⟨hea, Or.inl hew⟩, hes⟩

/-! ## The first pass -/

/-- What the first pass over some locks does: it keeps the summary and makes every locked account present, and its step
comes after every blocking event, and right after one of them if it has grown. -/
structure FirstPass (log : List LockEvent) (locks : List AccountLock) (acc acc' : AccountStates × Nat) : Prop where
  summarises : Summarises acc'.1 log
  mono : ∀ a, a ∈ acc.1 → a ∈ acc'.1
  present : ∀ l ∈ locks, l.account ∈ acc'.1
  le : acc.2 ≤ acc'.2
  after : ∀ l ∈ locks, ∀ e ∈ log, Blocks e l → e.step < acc'.2
  reached : acc'.2 = acc.2 ∨ ∃ l ∈ locks, ∃ e ∈ log, Blocks e l ∧ acc'.2 = e.step + 1

/-- One lock of the first pass. -/
theorem firstPass_singleton {log : List LockEvent} {acc : AccountStates × Nat} (h : Summarises acc.1 log)
    (l : AccountLock) :
    FirstPass log [l] acc (earliestStep acc l) := by
  have hst := h l.account
  have hsum : Summarises (acc.1.entryOr l.account {}).1 log := fun a => by
    rw [HashMap.entryOr_lookup_getD]
    exact h a
  have hmono : ∀ a, a ∈ acc.1 → a ∈ (acc.1.entryOr l.account {}).1 :=
    fun a ha => (HashMap.mem_entryOr _ _ _).2 (Or.inr ha)
  have hpresent : ∀ l' ∈ [l], l'.account ∈ (acc.1.entryOr l.account {}).1 := by
    intro l' hl'
    rw [List.mem_singleton.1 hl']
    exact (HashMap.mem_entryOr _ _ _).2 (Or.inl rfl)
  rw [← HashMap.entryOr_snd] at hst
  cases hb : blockingStep l (acc.1.entryOr l.account {}).2 with
  | none =>
    have hacc : earliestStep acc l = ((acc.1.entryOr l.account {}).1, acc.2) := by simp only [earliestStep, hb]
    rw [hacc]
    refine ⟨hsum, hmono, hpresent, le_rfl, fun l' hl' e he heb => ?_, Or.inl rfl⟩
    rw [List.mem_singleton.1 hl'] at heb
    obtain ⟨k, hk, _⟩ := hst.le_blockingStep he heb
    rw [hb] at hk
    cases hk
  | some b =>
    have hacc : earliestStep acc l = ((acc.1.entryOr l.account {}).1, max acc.2 (b + 1)) := by
      simp only [earliestStep, hb]
    rw [hacc]
    refine ⟨hsum, hmono, hpresent, le_max_left _ _, fun l' hl' e he heb => ?_, ?_⟩
    · rw [List.mem_singleton.1 hl'] at heb
      obtain ⟨k, hk, hle⟩ := hst.le_blockingStep he heb
      rw [hb] at hk
      cases hk
      exact lt_of_lt_of_le (Nat.lt_succ_of_le hle) (le_max_right _ _)
    · obtain ⟨e, he, heb, rfl⟩ := hst.blockingStep_mem hb
      rcases max_choice acc.2 (e.step + 1) with hm | hm
      · exact Or.inl hm
      · exact Or.inr ⟨l, List.mem_singleton_self l, e, he, heb, hm⟩

/-- A lock and then more locks. -/
theorem FirstPass.cons {log : List LockEvent} {l : AccountLock} {locks : List AccountLock}
    {acc acc₁ acc₂ : AccountStates × Nat} (h : FirstPass log [l] acc acc₁) (h' : FirstPass log locks acc₁ acc₂) :
    FirstPass log (l :: locks) acc acc₂ := by
  have hl : l ∈ [l] := List.mem_singleton_self l
  refine ⟨h'.summarises, fun a ha => h'.mono a (h.mono a ha), ?_, h.le.trans h'.le, ?_, ?_⟩
  · intro x hx
    rcases List.mem_cons.1 hx with rfl | hx
    · exact h'.mono _ (h.present x hl)
    · exact h'.present x hx
  · intro x hx e he heb
    rcases List.mem_cons.1 hx with rfl | hx
    · exact lt_of_lt_of_le (h.after x hl e he heb) h'.le
    · exact h'.after x hx e he heb
  · rcases h'.reached with heq | ⟨x, hx, e, he, heb, hes⟩
    · rcases h.reached with h0 | ⟨x, hx, e, he, heb, hes⟩
      · exact Or.inl (heq.trans h0)
      · exact Or.inr ⟨x, List.mem_cons.2 (Or.inl (List.mem_singleton.1 hx)), e, he, heb, heq.trans hes⟩
    · exact Or.inr ⟨x, List.mem_cons_of_mem _ hx, e, he, heb, hes⟩

/-- The first pass. -/
theorem earliestStep_foldl {log : List LockEvent} : ∀ (locks : List AccountLock) (acc : AccountStates × Nat),
    Summarises acc.1 log → FirstPass log locks acc (locks.foldl earliestStep acc)
  | [], _, h => ⟨h, fun _ => id, nofun, le_rfl, nofun, Or.inl rfl⟩
  | l :: locks, _, h =>
    have hone := firstPass_singleton h l
    hone.cons (earliestStep_foldl locks _ hone.summarises)

/-! ## The second pass -/

/-- The second pass: with every locked account present it never fails, and it appends the locks to the log. -/
theorem recordLock_foldlM (tx : TxLocks) (s : Nat) : ∀ (locks : List AccountLock) {log : List LockEvent}
    (acc : AccountStates × List ConflictEvent), Summarises acc.1 log → (∀ l ∈ locks, l.account ∈ acc.1) →
    (∀ l ∈ locks, l.isWritable = true → ∀ e ∈ log, e.account = l.account → e.step ≤ s) →
    ∃ acc', locks.foldlM (recordLock tx s) acc = some acc' ∧
      Summarises acc'.1 (log ++ locks.map fun l => ⟨l.account, l.isWritable, s⟩)
  | [], log, acc, h, _, _ => ⟨acc, rfl, by simpa using h⟩
  | l :: locks, log, acc, h, hmem, hs => by
    obtain ⟨state, hst⟩ := Option.isSome_iff_exists.1 (AList.lookup_isSome.2 (hmem l List.mem_cons_self))
    obtain ⟨acc', hacc, hsum⟩ := recordLock_foldlM tx s locks
      (acc.1.insert l.account (state.record l.isWritable s), acc.2 ++ conflictOf tx s l state)
      (h.record hst (hs l List.mem_cons_self))
      (fun x hx => (AList.mem_insert _).2 (Or.inr (hmem x (List.mem_cons_of_mem _ hx))))
      (fun x hx hw e he hea => by
        rcases List.mem_append.1 he with h1 | h1
        · exact hs x (List.mem_cons_of_mem _ hx) hw e h1 hea
        · rw [List.mem_singleton.1 h1])
    refine ⟨acc', ?_, by simpa using hsum⟩
    simp only [List.foldlM_cons, recordLock, hst, Option.bind_eq_bind, Option.bind_some, Option.pure_def]
    exact hacc

/-! ## The run -/

/-- What the loop has established after the transactions `txs`. -/
structure Inv (txs : List TxLocks) (acc : LoopState) : Prop where
  length : acc.2.1.length = txs.length
  summarises : Summarises acc.1 (lockLog txs acc.2.1)
  steps : ∀ i < txs.length, StepAt (ConflictAt txs) (acc.2.1.getD · 0) i

theorem inv_nil : Inv [] (∅, [], []) :=
  ⟨rfl, summarises_nil, fun _ h => absurd h (Nat.not_lt_zero _)⟩

/-- A conflict with the transaction at `i` is a blocking event of an earlier transaction. -/
theorem conflictAt_iff_blocks {txs : List TxLocks} {tx : TxLocks} {j : Nat} (hj : j < txs.length) (s : Nat) :
    ConflictAt (txs ++ [tx]) j txs.length ↔
      ∃ t, txs[j]? = some t ∧ ∃ l ∈ tx.locks, ∃ k ∈ t.locks, Blocks ⟨k.account, k.isWritable, s⟩ l := by
  have hlast : (txs ++ [tx])[txs.length]? = some tx := by simp
  constructor
  · rintro ⟨t, u, ht, hu, k, hk, l, hl, hkl, hw⟩
    rw [hlast] at hu
    cases hu
    rw [List.getElem?_append_left hj] at ht
    exact ⟨t, ht, l, hl, k, hk, hkl, hw⟩
  · rintro ⟨t, ht, l, hl, k, hk, hkl, hw⟩
    exact ⟨t, tx, by rw [List.getElem?_append_left hj]; exact ht, hlast, k, hk, l, hl, hkl, hw⟩

theorem conflictAt_append {txs : List TxLocks} {tx : TxLocks} {i j : Nat} (hj : j < txs.length) (hi : i < txs.length) :
    ConflictAt (txs ++ [tx]) j i ↔ ConflictAt txs j i := by
  simp only [ConflictAt, List.getElem?_append_left hj, List.getElem?_append_left hi]

/-- One transaction keeps the invariant, and the loop does not fail at it. -/
theorem scheduleTx_inv {txs : List TxLocks} {acc : LoopState} (h : Inv txs acc) (tx : TxLocks) :
    ∃ acc', scheduleTx acc tx = some acc' ∧ Inv (txs ++ [tx]) acc' := by
  obtain ⟨accountState, steps, conflicts⟩ := acc
  obtain ⟨hlen, hsum, hsteps⟩ := h
  simp only at hlen hsum hsteps
  obtain ⟨hs1, _, hmem, _, hlt, htight⟩ := earliestStep_foldl tx.locks (accountState, 0) hsum
  generalize hp : tx.locks.foldl earliestStep (accountState, 0) = p at hs1 hmem hlt htight
  obtain ⟨acc', hacc, hsum'⟩ := recordLock_foldlM tx p.2 tx.locks (p.1, conflicts) hs1 hmem
    (fun l hl hw e he hea => (hlt l hl e he ⟨hea, Or.inr hw⟩).le)
  refine ⟨(acc'.1, steps ++ [p.2], acc'.2), ?_, ?_⟩
  · simp [scheduleTx, hp, hacc]
  have hold : ∀ j < steps.length, (steps ++ [p.2]).getD j 0 = steps.getD j 0 := fun j hj => by
    simp only [List.getD_eq_getElem?_getD, List.getElem?_append_left hj]
  have hnew : (steps ++ [p.2]).getD txs.length 0 = p.2 := by
    simp [List.getD_eq_getElem?_getD, ← hlen]
  refine ⟨by simp [hlen], by rw [lockLog_append hlen]; exact hsum', fun i hi => ?_⟩
  rw [List.length_append, List.length_singleton] at hi
  rcases Nat.lt_succ_iff_lt_or_eq.1 hi with hi | rfl
  · exact (hsteps i hi).congr (fun j hj => conflictAt_append (hj.trans hi) hi)
      (fun j hj => hold j (by omega))
  · -- the new transaction: its blocking events are those of the earlier transactions in conflict with it
    constructor
    · intro j hj hc
      obtain ⟨t, ht, l, hl, k, hk, hb⟩ := (conflictAt_iff_blocks hj (steps.getD j 0)).1 hc
      rw [hnew, hold j (by omega)]
      exact hlt l hl _ ((mem_lockLog hlen).2 ⟨j, t, ht, k, hk, rfl⟩) hb
    · rw [hnew]
      refine htight.imp id ?_
      rintro ⟨l, hl, e, he, hb, hes⟩
      obtain ⟨j, t, ht, k, hk, rfl⟩ := (mem_lockLog hlen).1 he
      have hj : j < txs.length := (List.getElem?_eq_some_iff.1 ht).1
      exact ⟨j, hj, (conflictAt_iff_blocks hj _).2 ⟨t, ht, l, hl, k, hk, hb⟩, by rw [hold j (by omega)]; exact hes⟩

/-- Every run of the loop succeeds and keeps the invariant. -/
theorem foldlM_inv : ∀ (rest : List TxLocks) {txs : List TxLocks} {acc : LoopState}, Inv txs acc →
    ∃ acc', rest.foldlM scheduleTx acc = some acc' ∧ Inv (txs ++ rest) acc'
  | [], txs, acc, h => ⟨acc, rfl, by simpa using h⟩
  | tx :: rest, txs, acc, h => by
    obtain ⟨acc₁, h₁, hinv₁⟩ := scheduleTx_inv h tx
    obtain ⟨acc', h', hinv'⟩ := foldlM_inv rest hinv₁
    exact ⟨acc', by simp [h₁, h'], by simpa using hinv'⟩

/-- The scheduler succeeds, and every step is greedy for the conflicts of the block. -/
theorem buildSchedule_stepAt (txs : List TxLocks) : ∃ r, buildSchedule txs = some r ∧
    r.steps.length = txs.length ∧ ∀ i < txs.length, StepAt (ConflictAt txs) r.step i := by
  obtain ⟨⟨m, steps, conflicts⟩, hacc, hinv⟩ := foldlM_inv txs inv_nil
  rw [List.nil_append] at hinv
  refine ⟨⟨steps, (steps.max?.map (· + 1)).getD 0, widthPerStep steps, conflicts⟩, ?_, hinv.length, hinv.steps⟩
  simp only [buildSchedule, hacc, Option.bind_eq_bind, Option.bind_some, Option.pure_def]

theorem buildSchedule_isSome (txs : List TxLocks) : (buildSchedule txs).isSome := by
  obtain ⟨r, hr, _⟩ := buildSchedule_stepAt txs
  rw [hr]
  rfl

/-- The schedule of a block: the scheduler does not fail. -/
def schedule (txs : List TxLocks) : ScheduleResult := (buildSchedule txs).get (buildSchedule_isSome txs)

theorem buildSchedule_eq_schedule (txs : List TxLocks) : buildSchedule txs = some (schedule txs) :=
  (Option.some_get (buildSchedule_isSome txs)).symm

theorem schedule_stepAt (txs : List TxLocks) :
    (schedule txs).steps.length = txs.length ∧ ∀ i < txs.length, StepAt (ConflictAt txs) (schedule txs).step i := by
  obtain ⟨r, hr, h⟩ := buildSchedule_stepAt txs
  rw [buildSchedule_eq_schedule, Option.some.injEq] at hr
  rw [hr]
  exact h

/-- The depth is one more than the largest step. -/
theorem schedule_depth (txs : List TxLocks) :
    (schedule txs).depth = ((schedule txs).steps.max?.map (· + 1)).getD 0 := by
  have h := buildSchedule_eq_schedule txs
  simp only [buildSchedule, Option.bind_eq_bind, Option.bind_eq_some_iff, Option.pure_def, Option.some.injEq] at h
  obtain ⟨acc, _, h⟩ := h
  rw [← h]

/-- **The scheduler computes the pairwise steps.** It never panics, and the step of a transaction is `0` if no earlier
transaction conflicts with it and otherwise one more than the largest step of an earlier conflicting one. -/
theorem buildSchedule_eq_pairwise (txs : List TxLocks) : ∃ r, buildSchedule txs = some r ∧
    r.steps.length = txs.length ∧ ∀ i < txs.length,
      ((∀ j < i, ¬ConflictAt txs j i) → r.step i = 0) ∧
      ((∃ j < i, ConflictAt txs j i) →
        ∃ m, IsGreatest {s | ∃ j < i, ConflictAt txs j i ∧ r.step j = s} m ∧ r.step i = 1 + m) := by
  obtain ⟨r, hr, hlen, hstep⟩ := buildSchedule_stepAt txs
  exact ⟨r, hr, hlen, fun i hi => ⟨(hstep i hi).eq_zero, (hstep i hi).isGreatest⟩⟩

end Tenso.Contention
