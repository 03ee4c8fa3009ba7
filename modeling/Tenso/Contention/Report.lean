import Tenso.Contention.Optimal

/-!
# The conflict report

The second pass of the scheduler reports a conflict for a writable lock on an account that was locked before
(`schedule_conflicts`). It reports nothing for a read lock, also when that read had to wait for a write. So the report
is complete exactly when no transaction read-locks an account that an earlier one locks as writable
(`conflicts_complete_iff`).
-/

namespace Tenso.Contention

open ConflictOrder

/-! ## What the code reports -/

/-- The event of a lock at step `step`. -/
def lockEvent (tx : TxLocks) (step : Nat) (lock : AccountLock) : ConflictEvent :=
  { account := lock.account, txSignature := tx.signature, programIds := tx.programIds, step,
    causedByWrite := lock.isWritable }

/-- The events of the locks of a transaction when the accounts `seen` were locked before. -/
def lockReport (tx : TxLocks) (step : Nat) : List String → List AccountLock → List ConflictEvent
  | _, [] => []
  | seen, l :: locks =>
    (if l.isWritable = true ∧ l.account ∈ seen then [lockEvent tx step l] else []) ++
      lockReport tx step (l.account :: seen) locks

/-- The events of a list of transactions with their steps when the accounts `seen` were locked before. -/
def report : List String → List (TxLocks × Nat) → List ConflictEvent
  | _, [] => []
  | seen, (tx, step) :: rest =>
    lockReport tx step seen tx.locks ++ report (tx.locks.map (·.account) ++ seen) rest

/-- The accounts `seen` are those with an activity. -/
def Active (m : AccountStates) (seen : List String) : Prop :=
  ∀ a, ((m.lookup a).getD {}).hadPriorActivity = true ↔ a ∈ seen

theorem active_nil : Active ∅ [] := fun a => by simp [AccountState.hadPriorActivity]

theorem hadPriorActivity_record (state : AccountState) (isWritable : Bool) (step : Nat) :
    (state.record isWritable step).hadPriorActivity = true := by
  cases isWritable <;> simp [AccountState.record, AccountState.hadPriorActivity]

/-- The first pass changes no account state. -/
theorem lookup_earliestStep (a : String) : ∀ (locks : List AccountLock) (acc : AccountStates × Nat),
    ((locks.foldl earliestStep acc).1.lookup a).getD {} = (acc.1.lookup a).getD {}
  | [], _ => rfl
  | l :: locks, acc => by
    have hlookup := HashMap.entryOr_lookup_getD acc.1 l.account {} a
    rw [List.foldl_cons, lookup_earliestStep a locks, ← hlookup, earliestStep]
    cases hb : blockingStep l (acc.1.entryOr l.account {}).2 <;> simp only [hb]

/-- The second pass appends the report of the locks. -/
theorem recordLock_report {tx : TxLocks} {step : Nat} : ∀ {locks : List AccountLock} {seen : List String}
    {acc acc' : AccountStates × List ConflictEvent}, Active acc.1 seen →
    locks.foldlM (recordLock tx step) acc = some acc' →
    acc'.2 = acc.2 ++ lockReport tx step seen locks ∧ Active acc'.1 (locks.map (·.account) ++ seen)
  | [], seen, acc, acc', h, hrun => by
    cases hrun
    exact ⟨(List.append_nil _).symm, h⟩
  | l :: locks, seen, acc, acc', h, hrun => by
    simp only [List.foldlM_cons, recordLock, Option.bind_eq_bind, Option.pure_def, Option.bind_eq_some_iff,
      Option.some.injEq] at hrun
    obtain ⟨acc₁, ⟨state, hstate, rfl⟩, hrun⟩ := hrun
    have hactive : Active (acc.1.insert l.account (state.record l.isWritable step)) (l.account :: seen) := by
      intro a
      by_cases ha : a = l.account
      · subst ha
        simp [hadPriorActivity_record]
      · simp [AList.lookup_insert_ne ha, ha, h a]
    obtain ⟨hevents, hactive'⟩ := recordLock_report hactive hrun
    have hl := h l.account
    rw [hstate, Option.getD_some] at hl
    constructor
    · rw [hevents, List.append_assoc, lockReport]
      congr 2
      simp only [conflictOf, Bool.and_eq_true, hl]
      split
      · rename_i hw
        rw [lockEvent, hw.1]
      · rfl
    · intro a
      rw [hactive' a]
      simp only [List.mem_append, List.map_cons, List.mem_cons]
      tauto

/-- One transaction appends its step and its report. -/
theorem scheduleTx_report {tx : TxLocks} {seen : List String} {acc acc' : LoopState} (h : Active acc.1 seen)
    (hrun : scheduleTx acc tx = some acc') : ∃ step, acc'.2.1 = acc.2.1 ++ [step] ∧
      acc'.2.2 = acc.2.2 ++ lockReport tx step seen tx.locks ∧
      Active acc'.1 (tx.locks.map (·.account) ++ seen) := by
  obtain ⟨accountState, steps, conflicts⟩ := acc
  simp only [scheduleTx, Option.bind_eq_bind, Option.pure_def, Option.bind_eq_some_iff, Option.some.injEq] at hrun
  obtain ⟨acc₁, hrun, rfl⟩ := hrun
  have hactive : Active (tx.locks.foldl earliestStep (accountState, 0)).1 seen := fun a => by
    rw [lookup_earliestStep]
    exact h a
  exact ⟨_, rfl, recordLock_report hactive hrun⟩

/-- The run appends the report of the transactions with the steps it appends. -/
theorem foldlM_report : ∀ {txs : List TxLocks} {seen : List String} {acc acc' : LoopState}, Active acc.1 seen →
    txs.foldlM scheduleTx acc = some acc' → ∃ steps, acc'.2.1 = acc.2.1 ++ steps ∧ steps.length = txs.length ∧
      acc'.2.2 = acc.2.2 ++ report seen (txs.zip steps)
  | [], seen, acc, acc', _, hrun => by
    cases hrun
    exact ⟨[], by simp, rfl, by simp [report]⟩
  | tx :: txs, seen, acc, acc', h, hrun => by
    simp only [List.foldlM_cons, Option.bind_eq_bind, Option.bind_eq_some_iff] at hrun
    obtain ⟨acc₁, htx, hrun⟩ := hrun
    obtain ⟨step, hstep, hevents, hactive⟩ := scheduleTx_report h htx
    obtain ⟨steps, hsteps, hlen, hevents'⟩ := foldlM_report hactive hrun
    refine ⟨step :: steps, by simp [hsteps, hstep], by simp [hlen], ?_⟩
    rw [hevents', hevents, List.append_assoc]
    rfl

/-- The report of the scheduler. -/
theorem schedule_conflicts (txs : List TxLocks) :
    (schedule txs).conflicts = report [] (txs.zip (schedule txs).steps) := by
  have h := buildSchedule_eq_schedule txs
  simp only [buildSchedule, Option.bind_eq_bind, Option.bind_eq_some_iff, Option.pure_def, Option.some.injEq] at h
  obtain ⟨acc, hrun, h⟩ := h
  obtain ⟨steps, hsteps, _, hevents⟩ := foldlM_report active_nil hrun
  rw [← h]
  simp only [hevents, hsteps, List.nil_append]

/-! ## What there is to report -/

/-- The lock conflicts with a lock of one of the transactions. -/
def ConflictsWith (earlier : List TxLocks) (l : AccountLock) : Prop :=
  ∃ t ∈ earlier, ∃ m ∈ t.locks, m.account = l.account ∧ (m.isWritable = true ∨ l.isWritable = true)

instance (earlier : List TxLocks) (l : AccountLock) : Decidable (ConflictsWith earlier l) :=
  inferInstanceAs (Decidable (∃ t ∈ earlier, ∃ m ∈ t.locks, _ ∧ _))

/-- The full report: an event for each lock that conflicts with a lock of an earlier transaction. -/
def fullReport : List TxLocks → List (TxLocks × Nat) → List ConflictEvent
  | _, [] => []
  | earlier, (tx, step) :: rest =>
    (tx.locks.filter fun l => ConflictsWith earlier l).map (lockEvent tx step) ++ fullReport (earlier ++ [tx]) rest

/-- What a transaction locks as writable, a later one does not lock as readable. -/
def WritesOnly (t u : TxLocks) : Prop :=
  ∀ m ∈ t.locks, ∀ l ∈ u.locks, m.account = l.account → m.isWritable = true → l.isWritable = true

/-- With distinct accounts the code reports the writable locks on accounts seen before. -/
theorem lockReport_eq {tx : TxLocks} {step : Nat} : ∀ {locks : List AccountLock} {seen : List String},
    (locks.map (·.account)).Nodup → lockReport tx step seen locks =
      (locks.filter fun l => l.isWritable = true ∧ l.account ∈ seen).map (lockEvent tx step)
  | [], _, _ => rfl
  | l :: locks, seen, hd => by
    obtain ⟨hl, hd⟩ := List.nodup_cons.1 hd
    have hseen : (locks.filter fun x => x.isWritable = true ∧ x.account ∈ l.account :: seen) =
        locks.filter fun x => x.isWritable = true ∧ x.account ∈ seen := by
      apply List.filter_congr
      intro x hx
      have hne : x.account ≠ l.account := fun he => hl (List.mem_map.2 ⟨x, hx, he⟩)
      simp [hne]
    rw [lockReport, lockReport_eq hd, hseen, List.filter_cons]
    by_cases hw : l.isWritable = true ∧ l.account ∈ seen
    · simp [hw]
    · simp only [hw, decide_false, if_false, List.nil_append, Bool.false_eq_true]

/-- The code reports the events of the full report that are caused by a write. -/
theorem report_eq_filter : ∀ {ps : List (TxLocks × Nat)} {earlier : List TxLocks} {seen : List String},
    (∀ p ∈ ps, (p.1.locks.map (·.account)).Nodup) → (∀ a, a ∈ seen ↔ ∃ t ∈ earlier, ∃ m ∈ t.locks, m.account = a) →
    report seen ps = (fullReport earlier ps).filter (·.causedByWrite)
  | [], _, _, _, _ => rfl
  | (tx, step) :: ps, earlier, seen, hd, hseen => by
    have hrest : report (tx.locks.map (·.account) ++ seen) ps =
        (fullReport (earlier ++ [tx]) ps).filter (·.causedByWrite) := by
      apply report_eq_filter fun p hp => hd p (List.mem_cons_of_mem _ hp)
      intro a
      simp only [List.mem_append, List.mem_map, hseen, List.mem_singleton]
      constructor
      · rintro (⟨m, hm, he⟩ | ⟨t, ht, hm⟩)
        · exact ⟨tx, Or.inr rfl, m, hm, he⟩
        · exact ⟨t, Or.inl ht, hm⟩
      · rintro ⟨t, ht | rfl, m, hm, he⟩
        · exact Or.inr ⟨t, ht, m, hm, he⟩
        · exact Or.inl ⟨m, hm, he⟩
    have hd' : (tx.locks.map (·.account)).Nodup := hd (tx, step) List.mem_cons_self
    rw [report, fullReport, hrest, lockReport_eq hd', List.filter_append, List.filter_map, List.filter_filter]
    congr 2
    apply List.filter_congr
    intro l _
    cases hw : l.isWritable <;> simp [lockEvent, ConflictsWith, hw, hseen]

/-- All events of the full report are caused by a write when no read comes after a write. -/
theorem forall_causedByWrite_iff : ∀ (ps : List (TxLocks × Nat)) (earlier : List TxLocks),
    (∀ e ∈ fullReport earlier ps, e.causedByWrite = true) ↔
      (∀ t ∈ earlier, ∀ p ∈ ps, WritesOnly t p.1) ∧ ps.Pairwise fun p q => WritesOnly p.1 q.1
  | [], _ => by simp [fullReport]
  | (tx, step) :: ps, earlier => by
    have htx : (∀ l ∈ tx.locks, ConflictsWith earlier l → l.isWritable = true) ↔ ∀ t ∈ earlier, WritesOnly t tx := by
      constructor
      · intro h t ht m hm l hl he hw
        exact h l hl ⟨t, ht, m, hm, he, Or.inl hw⟩
      · rintro h l hl ⟨t, ht, m, hm, he, hw | hw⟩
        · exact h t ht m hm l hl he hw
        · exact hw
    have hrest := forall_causedByWrite_iff ps (earlier ++ [tx])
    simp only [List.forall_mem_append, List.mem_singleton, forall_eq] at hrest
    simp only [fullReport, List.forall_mem_append, hrest, List.forall_mem_map, List.mem_filter, and_imp, lockEvent, htx,
      List.pairwise_cons, List.forall_mem_cons, decide_eq_true_eq]
    constructor
    · rintro ⟨h₁, ⟨h₂, h₃⟩, h₄⟩
      exact ⟨fun t ht => ⟨h₁ t ht, h₂ t ht⟩, h₃, h₄⟩
    · rintro ⟨h₁, h₃, h₄⟩
      exact ⟨fun t ht => (h₁ t ht).1, ⟨fun t ht => (h₁ t ht).2, h₃⟩, h₄⟩

/-- A lock that conflicts with an earlier transaction has its event in the full report. -/
theorem mem_fullReport {tx : TxLocks} {step : Nat} {l : AccountLock} (hl : l ∈ tx.locks) {post : List (TxLocks × Nat)} :
    ∀ {pre : List (TxLocks × Nat)} {earlier : List TxLocks}, ConflictsWith (earlier ++ pre.map (·.1)) l →
      lockEvent tx step l ∈ fullReport earlier (pre ++ (tx, step) :: post)
  | [], earlier, h => by
    simp only [List.map_nil, List.append_nil] at h
    exact List.mem_append_left _ (List.mem_map_of_mem (List.mem_filter.2 ⟨hl, by simpa using h⟩))
  | p :: pre, earlier, h => by
    apply List.mem_append_right
    apply mem_fullReport hl
    simpa using h

/-! ## Completeness -/

/-- The report is the full report, and in particular every transaction that is delayed has an event. -/
structure ReportComplete (txs : List TxLocks) (r : ScheduleResult) : Prop where
  events : r.conflicts.Perm (fullReport [] (txs.zip r.steps))
  delayed : ∀ i tx, txs[i]? = some tx → 0 < r.step i → ∃ e ∈ r.conflicts, e.txSignature = tx.signature ∧
    e.step = r.step i

/-- A transaction that is delayed has an event in the full report. -/
theorem exists_mem_fullReport {txs : List TxLocks} {i : Nat} {tx : TxLocks} (htx : txs[i]? = some tx)
    (hpos : 0 < (schedule txs).step i) : ∃ e ∈ fullReport [] (txs.zip (schedule txs).steps),
      e.txSignature = tx.signature ∧ e.step = (schedule txs).step i := by
  obtain ⟨hlen, hstep⟩ := schedule_stepAt txs
  obtain ⟨hi, rfl⟩ := List.getElem?_eq_some_iff.1 htx
  rcases (hstep i hi).tight with h0 | ⟨j, hj, ⟨t, u, ht, hu, m, hm, l, hl, he, hw⟩, _⟩
  · omega
  · rw [htx, Option.some.injEq] at hu
    subst hu
    have hzip : i < (txs.zip (schedule txs).steps).length := by
      rw [List.length_zip]
      omega
    have hsplit : txs.zip (schedule txs).steps = (txs.zip (schedule txs).steps).take i ++
        (txs[i], (schedule txs).step i) :: (txs.zip (schedule txs).steps).drop (i + 1) := by
      rw [ScheduleResult.step_eq_getElem _ (by omega), ← List.getElem_zip (h := hzip), List.getElem_cons_drop,
        List.take_append_drop]
    refine ⟨lockEvent txs[i] ((schedule txs).step i) l, ?_, rfl, rfl⟩
    rw [hsplit]
    apply mem_fullReport hl
    refine ⟨t, ?_, m, hm, he, hw⟩
    rw [List.nil_append, List.map_take, List.map_fst_zip hlen.ge]
    exact List.mem_take_iff_getElem.2 (by
      obtain ⟨hjt, rfl⟩ := List.getElem?_eq_some_iff.1 ht
      exact ⟨j, by omega, rfl⟩)

/-- **When the report is complete.** With distinct accounts in each transaction, the scheduler reports every conflict
if and only if no transaction read-locks an account that an earlier one locks as writable. -/
theorem conflicts_complete_iff (txs : List TxLocks) (hd : ∀ tx ∈ txs, (tx.locks.map (·.account)).Nodup) :
    ∃ r, buildSchedule txs = some r ∧ (ReportComplete txs r ↔ txs.Pairwise WritesOnly) := by
  refine ⟨schedule txs, buildSchedule_eq_schedule txs, ?_⟩
  have hlen := (schedule_stepAt txs).1
  have hfilter : (schedule txs).conflicts =
      (fullReport [] (txs.zip (schedule txs).steps)).filter (·.causedByWrite) := by
    rw [schedule_conflicts]
    apply report_eq_filter
    · exact fun p hp => hd p.1 (List.of_mem_zip hp).1
    · simp
  have hwrites : (∀ e ∈ fullReport [] (txs.zip (schedule txs).steps), e.causedByWrite = true) ↔
      txs.Pairwise WritesOnly := by
    rw [forall_causedByWrite_iff, ← List.pairwise_map, List.map_fst_zip hlen.ge]
    simp
  rw [← hwrites]
  constructor
  · intro h
    have hperm := h.events.length_eq
    rw [hfilter] at hperm
    exact List.length_filter_eq_length_iff.1 hperm
  · intro h
    have heq : (schedule txs).conflicts = fullReport [] (txs.zip (schedule txs).steps) := by
      rw [hfilter, List.filter_eq_self.2 h]
    refine ⟨.of_eq heq, fun i tx htx hpos => ?_⟩
    rw [heq]
    exact exists_mem_fullReport htx hpos

/-- Two writes of one account: the report is complete. -/
theorem conflicts_complete_iff_example :
    let txs : List TxLocks := [⟨"first", [], [⟨"account", true⟩]⟩, ⟨"second", [], [⟨"account", true⟩]⟩]
    ∃ r, buildSchedule txs = some r ∧ ReportComplete txs r := by
  obtain ⟨r, hr, hiff⟩ := conflicts_complete_iff
    [⟨"first", [], [⟨"account", true⟩]⟩, ⟨"second", [], [⟨"account", true⟩]⟩] (by decide)
  exact ⟨r, hr, hiff.2 (by simp [WritesOnly])⟩

/-- A read that waits for a write is not reported. -/
theorem delayed_read_unreported :
    let txs : List TxLocks := [⟨"writer", [], [⟨"account", true⟩]⟩, ⟨"reader", [], [⟨"account", false⟩]⟩]
    (∀ tx ∈ txs, (tx.locks.map (·.account)).Nodup) ∧
    ∃ r, buildSchedule txs = some r ∧ r.step 1 = 1 ∧ r.conflicts = [] ∧ ¬ReportComplete txs r := by
  intro txs
  have hconflicts : (schedule txs).conflicts = [] := by decide
  have hstep : (schedule txs).step 1 = 1 := by decide
  refine ⟨by decide, schedule txs, buildSchedule_eq_schedule txs, hstep, hconflicts, fun h => ?_⟩
  obtain ⟨e, he, _⟩ := h.delayed 1 _ rfl (by omega)
  rw [hconflicts] at he
  cases he

end Tenso.Contention
