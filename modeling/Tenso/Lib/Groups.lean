import Mathlib.Data.List.Nodup
import Mathlib.Data.List.Perm.Lattice

/-!
# Replacing groups of rows

The rows of a list fall into groups by `g`. To replace a group is to delete its rows and to append new ones; a list of
replacements is made one after the other.

- A group that is not named keeps its rows (`filter_replaceGroups_of_notMem`); a group that is named ends up with the
  rows of its last replacement (`filter_replaceGroups_last`).
- Replacements of distinct groups append all new rows to what is left (`replaceGroups_eq`), and making them once more
  changes nothing (`replaceGroups_idem`), though the rows move on the way (`replaceGroups_perm`).
-/

namespace Groups

variable {ρ γ : Type} [DecidableEq γ] {g : ρ → γ}

/-- Replace the rows of one group. -/
def replaceGroup (g : ρ → γ) (rows : List ρ) (p : γ × List ρ) : List ρ := rows.filter (g · ≠ p.1) ++ p.2

/-- The replacements, one after the other. -/
def replaceGroups (g : ρ → γ) (rows : List ρ) (ps : List (γ × List ρ)) : List ρ := ps.foldl (replaceGroup g) rows

/-- The new rows are rows of the group they replace. -/
def Grouped (g : ρ → γ) (ps : List (γ × List ρ)) : Prop := ∀ p ∈ ps, ∀ r ∈ p.2, g r = p.1

omit [DecidableEq γ] in
theorem Grouped.tail {p : γ × List ρ} {ps : List (γ × List ρ)} (h : Grouped g (p :: ps)) : Grouped g ps :=
  fun q hq => h q (List.mem_cons_of_mem p hq)

@[simp] theorem replaceGroups_nil (rows : List ρ) : replaceGroups g rows [] = rows := rfl

@[simp] theorem replaceGroups_cons (rows : List ρ) (p : γ × List ρ) (ps : List (γ × List ρ)) :
    replaceGroups g rows (p :: ps) = replaceGroups g (replaceGroup g rows p) ps := rfl

theorem replaceGroups_append (rows : List ρ) (ps qs : List (γ × List ρ)) :
    replaceGroups g rows (ps ++ qs) = replaceGroups g (replaceGroups g rows ps) qs := List.foldl_append

/-! ## One group of the result -/

/-- A replacement leaves the other groups alone. -/
theorem filter_replaceGroup_of_ne {rows : List ρ} {p : γ × List ρ} {s : γ} (hp : ∀ r ∈ p.2, g r = p.1) (hs : s ≠ p.1) :
    (replaceGroup g rows p).filter (g · = s) = rows.filter (g · = s) := by
  have hnew : p.2.filter (g · = s) = [] := by
    simp only [List.filter_eq_nil_iff, decide_eq_true_eq]
    intro r hr he
    exact hs (he ▸ hp r hr)
  rw [replaceGroup, List.filter_append, hnew, List.append_nil, List.filter_filter]
  apply List.filter_congr
  intro r _
  by_cases h : g r = s
  · simp [h, hs]
  · simp [h]

/-- The replaced group consists of the new rows. -/
theorem filter_replaceGroup_self {rows : List ρ} {p : γ × List ρ} (hp : ∀ r ∈ p.2, g r = p.1) :
    (replaceGroup g rows p).filter (g · = p.1) = p.2 := by
  have hold : (rows.filter (g · ≠ p.1)).filter (g · = p.1) = [] := by
    simp only [List.filter_filter, List.filter_eq_nil_iff]
    intro r _
    simp
  rw [replaceGroup, List.filter_append, hold, List.nil_append, List.filter_eq_self]
  intro r hr
  simpa using hp r hr

/-- Frame: a group that no replacement names keeps its rows. -/
theorem filter_replaceGroups_of_notMem {s : γ} : ∀ {ps : List (γ × List ρ)} {rows : List ρ}, Grouped g ps →
    s ∉ ps.map (·.1) → (replaceGroups g rows ps).filter (g · = s) = rows.filter (g · = s)
  | [], _, _, _ => rfl
  | p :: ps, rows, hg, hs => by
    rw [List.map_cons, List.mem_cons, not_or] at hs
    rw [replaceGroups_cons, filter_replaceGroups_of_notMem hg.tail hs.2,
      filter_replaceGroup_of_ne (hg p List.mem_cons_self) hs.1]

/-- A named group holds the rows of its last replacement. -/
theorem filter_replaceGroups_last {pre post : List (γ × List ρ)} {p : γ × List ρ} {rows : List ρ}
    (hg : Grouped g (pre ++ p :: post)) (hp : p.1 ∉ post.map (·.1)) :
    (replaceGroups g rows (pre ++ p :: post)).filter (g · = p.1) = p.2 := by
  have hgp : Grouped g (p :: post) := fun q hq => hg q (List.mem_append_right pre hq)
  rw [replaceGroups_append, replaceGroups_cons, filter_replaceGroups_of_notMem hgp.tail hp]
  exact filter_replaceGroup_self (hgp p List.mem_cons_self)

/-! ## Distinct groups -/

/-- Closed form: replacements of distinct groups delete all of them and append all new rows. -/
theorem replaceGroups_eq : ∀ {ps : List (γ × List ρ)} (rows : List ρ), Grouped g ps → (ps.map (·.1)).Nodup →
    replaceGroups g rows ps = rows.filter (g · ∉ ps.map (·.1)) ++ ps.flatMap (·.2)
  | [], rows, _, _ => by simp
  | p :: ps, rows, hg, hd => by
    obtain ⟨hp, hd⟩ := List.nodup_cons.1 hd
    have hnew : p.2.filter (g · ∉ ps.map (·.1)) = p.2 := by
      apply List.filter_eq_self.2
      intro r hr
      rw [hg p List.mem_cons_self r hr]
      exact decide_eq_true hp
    have hold : (rows.filter (g · ≠ p.1)).filter (g · ∉ ps.map (·.1)) =
        rows.filter (g · ∉ (p :: ps).map (·.1)) := by
      rw [List.filter_filter]
      apply List.filter_congr
      intro r _
      rw [List.map_cons, ← Bool.decide_and]
      exact decide_eq_decide.2 (by rw [List.mem_cons, not_or, and_comm])
    rw [replaceGroups_cons, replaceGroups_eq _ hg.tail hd, replaceGroup, List.filter_append, hnew, hold,
      List.append_assoc, List.flatMap_cons]

/-- **Idempotence.** Replacements of distinct groups, made twice, are as made once. -/
theorem replaceGroups_idem {ps : List (γ × List ρ)} {rows : List ρ} (hg : Grouped g ps) (hd : (ps.map (·.1)).Nodup) :
    replaceGroups g (replaceGroups g rows ps) ps = replaceGroups g rows ps := by
  have hnew : (ps.flatMap (·.2)).filter (g · ∉ ps.map (·.1)) = [] := by
    simp only [List.filter_eq_nil_iff, decide_eq_true_eq, not_not]
    intro r hr
    obtain ⟨p, hp, hr⟩ := List.mem_flatMap.1 hr
    rw [hg p hp r hr]
    exact List.mem_map_of_mem hp
  rw [replaceGroups_eq (replaceGroups g rows ps) hg hd, replaceGroups_eq rows hg hd, List.filter_append, hnew,
    List.append_nil, List.filter_filter]
  congr 1
  apply List.filter_congr
  intro r _
  rw [Bool.and_self]

/-- Replacing a group by its own rows only moves rows. -/
theorem replaceGroup_perm {rows : List ρ} {p : γ × List ρ} (h : (rows.filter (g · = p.1)).Perm p.2) :
    (replaceGroup g rows p).Perm rows := by
  refine (List.Perm.append_left _ h.symm).trans (List.perm_append_comm.trans ?_)
  have := List.filter_append_perm (fun r => decide (g r = p.1)) rows
  simpa only [decide_not] using this

/-- A run of such replacements only moves rows. -/
theorem replaceGroups_perm : ∀ {ps : List (γ × List ρ)} {rows : List ρ},
    (∀ p ∈ ps, (rows.filter (g · = p.1)).Perm p.2) → (replaceGroups g rows ps).Perm rows
  | [], rows, _ => List.Perm.refl rows
  | p :: ps, rows, h => by
    have hp := replaceGroup_perm (h p List.mem_cons_self)
    rw [replaceGroups_cons]
    refine (replaceGroups_perm fun q hq => ?_).trans hp
    exact (hp.filter _).trans (h q (List.mem_cons_of_mem p hq))

end Groups
