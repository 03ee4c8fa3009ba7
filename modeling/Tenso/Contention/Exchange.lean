import Mathlib.Logic.Equiv.Basic
import Tenso.Contention.Report
import Tenso.Contention.Serial

/-!
# The schedule depends only on the order of conflicting transactions

Exchanging two adjacent transactions without a conflict exchanges their steps, and rearranging the locks of a
transaction changes no step; depth, widths and the multiset of events stay in both cases (`buildSchedule_exchange`).
The steps follow from their uniqueness, since conflicting transactions keep their order; the events from
`schedule_conflicts`, since only the set of accounts seen before matters to the report.
-/

namespace Tenso.Contention

open ConflictOrder

/-! ## Exchanges in a list -/

/-- Exchanging two neighbours renames the positions. -/
theorem getElem?_exchange {α : Type*} (a b : List α) (x y : α) (i : Nat) :
    (a ++ y :: x :: b)[i]? = (a ++ x :: y :: b)[Equiv.swap a.length (a.length + 1) i]? := by
  by_cases h : i = a.length
  · subst h
    simp
  by_cases h' : i = a.length + 1
  · subst h'
    simp
  rw [Equiv.swap_apply_of_ne_of_ne h h', List.getElem?_append, List.getElem?_append]
  split
  · rfl
  · obtain ⟨k, rfl⟩ : ∃ k, i = a.length + (k + 2) := ⟨i - a.length - 2, by omega⟩
    simp

/-- Other pairs of positions keep their order. -/
theorem swap_lt_iff {k i j : Nat} (h : ¬(j = k ∧ i = k + 1)) (h' : ¬(j = k + 1 ∧ i = k)) :
    j < i ↔ Equiv.swap k (k + 1) j < Equiv.swap k (k + 1) i := by
  simp only [Equiv.swap_apply_def]
  split_ifs <;> omega

theorem swap_lt_length {k n : Nat} (hk : k + 1 < n) (i : Nat) : Equiv.swap k (k + 1) i < n ↔ i < n := by
  simp only [Equiv.swap_apply_def]
  split_ifs <;> omega

/-! ## The report -/

/-- Only the accounts of the writable locks matter to the report of a transaction. -/
theorem lockReport_congr {tx : TxLocks} {step : Nat} : ∀ {locks : List AccountLock} {seen seen' : List String},
    (∀ l ∈ locks, l.isWritable = true → (l.account ∈ seen ↔ l.account ∈ seen')) →
    lockReport tx step seen locks = lockReport tx step seen' locks
  | [], _, _, _ => rfl
  | l :: locks, seen, seen', h => by
    have hrest : lockReport tx step (l.account :: seen) locks = lockReport tx step (l.account :: seen') locks := by
      apply lockReport_congr
      intro x hx hw
      simp only [List.mem_cons, h x (List.mem_cons_of_mem _ hx) hw]
    have hl : (l.isWritable = true ∧ l.account ∈ seen) ↔ (l.isWritable = true ∧ l.account ∈ seen') :=
      and_congr_right (h l List.mem_cons_self)
    simp only [lockReport, hrest, hl]

/-- Only the set of the accounts seen before matters to the report. -/
theorem report_congr : ∀ {ps : List (TxLocks × Nat)} {seen seen' : List String}, (∀ a, a ∈ seen ↔ a ∈ seen') →
    report seen ps = report seen' ps
  | [], _, _, _ => rfl
  | (tx, step) :: ps, seen, seen', h => by
    rw [report, report, lockReport_congr fun l _ _ => h l.account]
    congr 1
    apply report_congr
    simp [h]

/-- A transaction without a conflict with `t` is reported the same before and after `t`. -/
theorem lockReport_unseen {t u : TxLocks} (h : ¬Conflicts t u) (step : Nat) (seen : List String) :
    lockReport u step (t.locks.map (·.account) ++ seen) u.locks = lockReport u step seen u.locks := by
  apply lockReport_congr
  intro l hl hw
  have hno : l.account ∉ t.locks.map (·.account) := by
    intro hm
    obtain ⟨m, hm, he⟩ := List.mem_map.1 hm
    exact h ⟨m, hm, l, hl, he, Or.inr hw⟩
  simp [hno]

/-- Exchanging neighbours without a conflict rearranges the report. -/
theorem report_exchange {t u : TxLocks} (h : ¬Conflicts t u) (s s' : Nat) (post : List (TxLocks × Nat)) :
    ∀ (pre : List (TxLocks × Nat)) (seen : List String),
      (report seen (pre ++ (u, s') :: (t, s) :: post)).Perm (report seen (pre ++ (t, s) :: (u, s') :: post))
  | [], seen => by
    have hpost : report (t.locks.map (·.account) ++ (u.locks.map (·.account) ++ seen)) post =
        report (u.locks.map (·.account) ++ (t.locks.map (·.account) ++ seen)) post := by
      apply report_congr
      simp only [List.mem_append]
      tauto
    simp only [List.nil_append, report, lockReport_unseen h, lockReport_unseen fun hc => h hc.symm, hpost]
    simp only [← List.append_assoc (lockReport _ _ _ _)]
    exact List.perm_append_comm.append_right _
  | (tx, step) :: pre, seen => (report_exchange h s s' post pre _).append_left _

/-- Rearranging the locks of a transaction rearranges the report. -/
theorem report_perm_locks {t : TxLocks} {locks : List AccountLock} (hp : locks.Perm t.locks)
    (hd : (t.locks.map (·.account)).Nodup) (s : Nat) (post : List (TxLocks × Nat)) :
    ∀ (pre : List (TxLocks × Nat)) (seen : List String),
      (report seen (pre ++ ({ t with locks }, s) :: post)).Perm (report seen (pre ++ (t, s) :: post))
  | [], seen => by
    have haccounts := hp.map (·.account)
    have hpost : report (locks.map (·.account) ++ seen) post = report (t.locks.map (·.account) ++ seen) post := by
      apply report_congr
      simp only [List.mem_append, haccounts.mem_iff, implies_true]
    simp only [List.nil_append, report, hpost, lockReport_eq hd, lockReport_eq (haccounts.nodup_iff.2 hd)]
    exact ((hp.filter _).map _).append_right _
  | (tx, step) :: pre, seen => (report_perm_locks hp hd s post pre _).append_left _

/-! ## The steps -/

/-- A conflict of the exchanged block is a conflict of the block. -/
theorem conflictAt_exchange (pre post : List TxLocks) (t u : TxLocks) (i j : Nat) :
    ConflictAt (pre ++ u :: t :: post) j i ↔ ConflictAt (pre ++ t :: u :: post)
      (Equiv.swap pre.length (pre.length + 1) j) (Equiv.swap pre.length (pre.length + 1) i) := by
  simp only [ConflictAt, getElem?_exchange pre post t u]

/-- Exchanging neighbours without a conflict exchanges their steps. -/
theorem step_exchange {t u : TxLocks} (h : ¬Conflicts t u) (pre post : List TxLocks) :
    ∀ i < (pre ++ t :: u :: post).length, (schedule (pre ++ u :: t :: post)).step i =
      (schedule (pre ++ t :: u :: post)).step (Equiv.swap pre.length (pre.length + 1) i) := by
  have hlen : (pre ++ u :: t :: post).length = (pre ++ t :: u :: post).length := by simp
  have hgreedy := (schedule_stepAt (pre ++ u :: t :: post)).2
  rw [hlen] at hgreedy
  apply StepAt.unique hgreedy
  intro i hi
  apply StepAt.rename (Equiv.swap_apply_self _ _)
  · apply (schedule_stepAt (pre ++ t :: u :: post)).2
    exact (swap_lt_length (by simp) i).2 hi
  · exact fun j => conflictAt_exchange pre post t u i j
  · -- the neighbours are the only positions whose order changes
    intro j ⟨v, w, hv, hw, hc⟩
    apply swap_lt_iff
    · rintro ⟨rfl, rfl⟩
      simp only [getElem?_exchange pre post t u] at hv hw
      simp at hv hw
      subst hv hw
      exact h hc.symm
    · rintro ⟨rfl, rfl⟩
      simp only [getElem?_exchange pre post t u] at hv hw
      simp at hv hw
      subst hv hw
      exact h hc

/-- Rearranging locks keeps the conflicts. -/
theorem ConflictAt.perm_locks {pre post : List TxLocks} {t : TxLocks} {locks : List AccountLock} {i j : Nat}
    (h : ConflictAt (pre ++ t :: post) j i) (hp : locks.Perm t.locks) :
    ConflictAt (pre ++ { t with locks } :: post) j i := by
  have hlocks : ∀ (k : Nat) (v : TxLocks), (pre ++ t :: post)[k]? = some v →
      ∃ v' : TxLocks, (pre ++ { t with locks } :: post)[k]? = some v' ∧ ∀ l ∈ v.locks, l ∈ v'.locks := by
    intro k v hv
    by_cases hk : k = pre.length
    · subst hk
      simp only [List.getElem?_append_right (Nat.le_refl _), Nat.sub_self, List.getElem?_cons_zero,
        Option.some.injEq] at hv
      subst hv
      exact ⟨{ t with locks }, by simp, fun l hl => hp.mem_iff.2 hl⟩
    · refine ⟨v, ?_, fun l hl => hl⟩
      rw [← hv, List.getElem?_append, List.getElem?_append]
      split
      · rfl
      · obtain ⟨m, hm⟩ : ∃ m, k - pre.length = m + 1 := ⟨k - pre.length - 1, by omega⟩
        simp [hm]
  obtain ⟨v, w, hv, hw, l, hl, m, hm, he⟩ := h
  obtain ⟨v', hv', hmv⟩ := hlocks j v hv
  obtain ⟨w', hw', hmw⟩ := hlocks i w hw
  exact ⟨v', w', hv', hw', l, hmv l hl, m, hmw m hm, he⟩

/-- Rearranged locks have the same conflicts. -/
theorem conflictAt_perm_locks {t : TxLocks} {locks : List AccountLock} (hp : locks.Perm t.locks)
    (pre post : List TxLocks)
    (i j : Nat) : ConflictAt (pre ++ { t with locks } :: post) j i ↔ ConflictAt (pre ++ t :: post) j i :=
  ⟨fun h => h.perm_locks hp.symm, fun h => h.perm_locks hp⟩

theorem getElem?_steps (txs : List TxLocks) (i : Nat) :
    (schedule txs).steps[i]? = if i < txs.length then some ((schedule txs).step i) else none := by
  have hlen := (schedule_stepAt txs).1
  split
  · rw [ScheduleResult.step_eq_getElem _ (by omega)]
    exact List.getElem?_eq_getElem _
  · exact List.getElem?_eq_none (by omega)

/-! ## Both exchanges -/

/-- Two schedules with the same depth, widths and events. -/
structure SameShape (r r' : ScheduleResult) : Prop where
  depth : r'.depth = r.depth
  width : ∀ s, r'.widthPerStep.lookup s = r.widthPerStep.lookup s
  conflicts : r'.conflicts.Perm r.conflicts

/-- Depth and widths only depend on the multiset of the steps. -/
theorem sameShape_of_perm {txs txs' : List TxLocks} (hs : (schedule txs').steps.Perm (schedule txs).steps)
    (hc : (schedule txs').conflicts.Perm (schedule txs).conflicts) : SameShape (schedule txs) (schedule txs') := by
  refine ⟨?_, fun s => ?_, hc⟩
  · have hlt (s : Nat) : s < (schedule txs').depth ↔ s < (schedule txs).depth := by
      rw [← mem_steps_iff_lt_depth, ← mem_steps_iff_lt_depth, hs.mem_iff]
    have h₁ := hlt (schedule txs').depth
    have h₂ := hlt (schedule txs).depth
    omega
  · simp only [schedule_widthPerStep, lookup_widthPerStep, hs.count_eq]

/-- A list of the length of a block splits where the block does. -/
theorem exists_split_steps {n m : Nat} {steps : List Nat} (h : steps.length = n + (m + 1)) :
    ∃ before s after, steps = before ++ s :: after ∧ before.length = n ∧ after.length = m := by
  have hn : n < steps.length := by omega
  refine ⟨steps.take n, steps[n], steps.drop (n + 1), ?_, ?_, ?_⟩
  · rw [List.getElem_cons_drop, List.take_append_drop]
  · simp only [List.length_take]
    omega
  · simp only [List.length_drop]
    omega

/-- Exchanging two adjacent transactions that do not conflict exchanges their steps. -/
theorem steps_exchange {t u : TxLocks} (h : ¬Conflicts t u) (pre post : List TxLocks)
    {before after : List Nat} {s s' : Nat}
    (hsteps : (schedule (pre ++ t :: u :: post)).steps = before ++ s :: s' :: after)
    (hbefore : before.length = pre.length) :
    (schedule (pre ++ u :: t :: post)).steps = before ++ s' :: s :: after := by
  apply List.ext_getElem?
  intro i
  have hi : Equiv.swap pre.length (pre.length + 1) i < (pre ++ t :: u :: post).length ↔
      i < (pre ++ u :: t :: post).length := by
    rw [swap_lt_length (by simp)]
    simp
  rw [getElem?_exchange, ← hsteps, hbefore, getElem?_steps, getElem?_steps]
  simp only [hi]
  split
  · rename_i hlt
    rw [step_exchange h pre post i (by simpa using hlt)]
  · rfl

/-- Rearranging the locks of a transaction changes no step. -/
theorem steps_perm_locks {t : TxLocks} {locks : List AccountLock} (hp : locks.Perm t.locks) (pre post : List TxLocks) :
    (schedule (pre ++ { t with locks } :: post)).steps = (schedule (pre ++ t :: post)).steps := by
  have heq : (pre ++ { t with locks } :: post).length = (pre ++ t :: post).length := by simp
  have hgreedy := (schedule_stepAt (pre ++ { t with locks } :: post)).2
  rw [heq] at hgreedy
  have hstep := StepAt.unique hgreedy fun i hi => ((schedule_stepAt (pre ++ t :: post)).2 i hi).congr
    (fun j _ => conflictAt_perm_locks hp pre post i j) fun _ _ => rfl
  apply List.ext_getElem?
  intro i
  rw [getElem?_steps, getElem?_steps, heq]
  split
  · rename_i hi
    rw [hstep i hi]
  · rfl

/-- **The schedule depends only on the order of conflicting transactions.** Exchanging two adjacent transactions that
do not conflict exchanges their steps, rearranging the locks of a transaction changes no step, and neither changes the
depth, the widths or the multiset of the events. -/
theorem buildSchedule_exchange :
    (∀ (pre post : List TxLocks) (t u : TxLocks), ¬Conflicts t u → ∃ r r' before s s' after,
      buildSchedule (pre ++ t :: u :: post) = some r ∧ buildSchedule (pre ++ u :: t :: post) = some r' ∧
      before.length = pre.length ∧ r.steps = before ++ s :: s' :: after ∧ r'.steps = before ++ s' :: s :: after ∧
      SameShape r r') ∧
    (∀ (pre post : List TxLocks) (t : TxLocks) (locks : List AccountLock), locks.Perm t.locks →
      (t.locks.map (·.account)).Nodup → ∃ r r', buildSchedule (pre ++ t :: post) = some r ∧
        buildSchedule (pre ++ { t with locks } :: post) = some r' ∧ r'.steps = r.steps ∧ SameShape r r') := by
  constructor
  · intro pre post t u h
    have hlen := (schedule_stepAt (pre ++ t :: u :: post)).1
    simp only [List.length_append, List.length_cons] at hlen
    obtain ⟨before, s, rest, hsteps, hbefore, hrest⟩ := exists_split_steps (m := post.length + 1) hlen
    obtain ⟨s', after, rfl⟩ := List.exists_cons_of_length_eq_add_one hrest
    have hsteps' := steps_exchange h pre post hsteps hbefore
    refine ⟨_, _, before, s, s', after, buildSchedule_eq_schedule _, buildSchedule_eq_schedule _, hbefore,
      hsteps, hsteps', sameShape_of_perm ?_ ?_⟩
    · rw [hsteps, hsteps']
      exact (List.Perm.swap s s' after).append_left before
    · rw [schedule_conflicts, schedule_conflicts, hsteps, hsteps', List.zip_append hbefore.symm,
        List.zip_append hbefore.symm]
      exact report_exchange h s s' _ _ _
  · intro pre post t locks hp hd
    have hlen := (schedule_stepAt (pre ++ t :: post)).1
    have hsteps := steps_perm_locks hp pre post
    simp only [List.length_append, List.length_cons] at hlen
    obtain ⟨before, s, after, hsplit, hbefore, _⟩ := exists_split_steps hlen
    refine ⟨_, _, buildSchedule_eq_schedule _, buildSchedule_eq_schedule _, hsteps,
      sameShape_of_perm (.of_eq hsteps) ?_⟩
    rw [schedule_conflicts, schedule_conflicts, hsteps, hsplit, List.zip_append hbefore.symm,
      List.zip_append hbefore.symm]
    exact report_perm_locks hp hd s _ _ _

/-- Two reads of one account may be exchanged, and the locks of one transaction. -/
theorem buildSchedule_exchange_example :
    let first : TxLocks := ⟨"first", [], [⟨"account", false⟩]⟩
    let second : TxLocks := ⟨"second", [], [⟨"account", false⟩, ⟨"other", true⟩]⟩
    (∃ r r', buildSchedule [first, second] = some r ∧ buildSchedule [second, first] = some r' ∧ SameShape r r') ∧
    ∃ r r', buildSchedule [first, second] = some r ∧
      buildSchedule [first, { second with locks := [⟨"other", true⟩, ⟨"account", false⟩] }] = some r' ∧
      r'.steps = r.steps ∧ SameShape r r' := by
  intro first second
  constructor
  · obtain ⟨r, r', _, _, _, _, hr, hr', _, _, _, hshape⟩ := buildSchedule_exchange.1 [] [] first second (by decide)
    exact ⟨r, r', hr, hr', hshape⟩
  · exact buildSchedule_exchange.2 [first] [] second _ (.swap _ _ _) (by decide)

end Tenso.Contention
