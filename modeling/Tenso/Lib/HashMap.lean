import Mathlib.Data.List.AList
import Mathlib.Data.List.Dedup
import Mathlib.Data.List.Induction
import Mathlib.Data.List.Rotate
import Mathlib.Tactic.Common

/-!
# Hash maps

A hash map is an association list with distinct keys. `entryOr` is the entry API that puts a default first
(`entry(k).or_insert(v)`), and `entryOr_lookup_getD` says that it never changes what a reader with the same default
sees. `groupBy` collects the items of each key in their order (`groupBy_lookup`). The order in which a hash map is
iterated is not fixed: it is an `IterOrder`.
-/

/-- A hash map from `κ` to `ν`. -/
abbrev HashMap (κ ν : Type) := AList fun _ : κ => ν

namespace HashMap

variable {κ ν : Type} [DecidableEq κ]

/-- `entry(k).or_insert(v)`: the value at `k`, and the map in which `k` is present. -/
def entryOr (m : HashMap κ ν) (k : κ) (v : ν) : HashMap κ ν × ν :=
  match m.lookup k with
  | some w => (m, w)
  | none => (m.insert k v, v)

theorem entryOr_snd (m : HashMap κ ν) (k : κ) (v : ν) : (m.entryOr k v).2 = (m.lookup k).getD v := by
  unfold entryOr
  cases h : m.lookup k <;> rfl

theorem mem_entryOr (m : HashMap κ ν) (k : κ) (v : ν) {a : κ} : a ∈ (m.entryOr k v).1 ↔ a = k ∨ a ∈ m := by
  unfold entryOr
  cases h : m.lookup k with
  | none => exact AList.mem_insert m
  | some w =>
    have hk : k ∈ m := AList.lookup_isSome.1 (by rw [h]; rfl)
    exact ⟨Or.inr, fun ha => ha.elim (fun e => e ▸ hk) id⟩

/-- Putting the default first is invisible to a reader with that default. -/
theorem entryOr_lookup_getD (m : HashMap κ ν) (k : κ) (v : ν) (a : κ) :
    ((m.entryOr k v).1.lookup a).getD v = (m.lookup a).getD v := by
  unfold entryOr
  cases h : m.lookup k with
  | some w => rfl
  | none =>
    by_cases ha : a = k
    · subst ha
      simp [h]
    · simp [AList.lookup_insert_ne ha]

/-- After `*entry(k).or_insert(v) = w` the map reads `w` at `k` and is unchanged elsewhere. -/
theorem lookup_insert_entryOr (m : HashMap κ ν) (k : κ) (v w : ν) (a : κ) :
    AList.lookup a ((m.entryOr k v).1.insert k w) = if a = k then some w else m.lookup a := by
  by_cases ha : a = k
  · subst ha
    rw [if_pos rfl, AList.lookup_insert]
  · rw [if_neg ha, AList.lookup_insert_ne ha, entryOr]
    cases m.lookup k with
    | some _ => rfl
    | none => exact AList.lookup_insert_ne ha

/-- The values are those at the keys, in whatever order the keys are listed. -/
theorem values_perm (m : HashMap κ ν) {ks : List κ} (hd : ks.Nodup) (hks : ∀ k ∈ m, k ∈ ks) :
    (m.entries.map (·.2)).Perm (ks.filterMap m.lookup) := by
  have hvalues : m.entries.map (·.2) = m.keys.filterMap m.lookup := by
    rw [AList.keys, List.keys, List.filterMap_map, ← List.filterMap_eq_map]
    apply List.filterMap_congr
    intro e he
    exact (AList.mem_lookup_iff.2 he).symm
  have hkeys : m.keys.Perm (ks.filter fun k => decide (k ∈ m)) := by
    refine (List.perm_ext_iff_of_nodup m.keys_nodup (hd.filter _)).2 fun k => ?_
    simpa [AList.mem_keys] using hks k
  have hpresent : (ks.filter fun k => decide (k ∈ m)).filterMap m.lookup = ks.filterMap m.lookup := by
    rw [List.filterMap_filter]
    apply List.filterMap_congr
    intro k _
    by_cases hk : k ∈ m
    · simp [hk]
    · simp [hk, AList.lookup_eq_none.2 hk]
  rw [hvalues, ← hpresent]
  exact hkeys.filterMap _

/-! ## Iteration -/

/-- An order in which hash maps are iterated: any rearrangement of the entries. -/
structure IterOrder where
  iter : {α : Type} → List α → List α
  perm : ∀ {α : Type} (l : List α), (iter l).Perm l

/-- Iterate the entries as they are stored. -/
def IterOrder.stored : IterOrder := ⟨fun l => l, fun _ => List.Perm.refl _⟩

/-- Iterate the entries from the `n`-th on, and then around. -/
def IterOrder.rotate (n : ℕ) : IterOrder := ⟨fun l => l.rotate n, fun l => l.rotate_perm n⟩

/-- Every entry is the first one in some order. -/
theorem IterOrder.exists_first {α : Type} {l : List α} {x : α} (hx : x ∈ l) :
    ∃ (ord : IterOrder) (l' : List α), ord.iter l = x :: l' := by
  obtain ⟨pre, post, rfl⟩ := List.append_of_mem hx
  exact ⟨.rotate pre.length, post ++ pre, List.rotate_append_length_eq pre (x :: post)⟩

/-- Every entry is the last one in some order. -/
theorem IterOrder.exists_last {α : Type} {l : List α} {x : α} (hx : x ∈ l) :
    ∃ (ord : IterOrder) (l' : List α), ord.iter l = l' ++ [x] := by
  obtain ⟨pre, post, rfl⟩ := List.append_of_mem hx
  refine ⟨.rotate (pre ++ [x]).length, post ++ pre, ?_⟩
  show (pre ++ x :: post).rotate (pre ++ [x]).length = _
  rw [List.append_cons, List.rotate_append_length_eq, List.append_assoc]

/-! ## Grouping -/

/-- `entry(k).or_default().push(a)`. -/
def pushAt {α : Type} (m : HashMap κ (List α)) (k : κ) (a : α) : HashMap κ (List α) :=
  let (m, xs) := m.entryOr k []
  m.insert k (xs ++ [a])

/-- The items of each key, in their order. -/
def groupBy {α : Type} (key : α → κ) (xs : List α) : HashMap κ (List α) := xs.foldl (fun m x => m.pushAt (key x) x) ∅

section Grouping

variable {α : Type} {key : α → κ}

theorem lookup_pushAt (m : HashMap κ (List α)) (k : κ) (x : α) (a : κ) :
    (m.pushAt k x).lookup a = if a = k then some ((m.lookup k).getD [] ++ [x]) else m.lookup a := by
  have h := lookup_insert_entryOr m k [] ((m.entryOr k []).2 ++ [x]) a
  rw [entryOr_snd] at h
  rw [← h, ← entryOr_snd m k []]
  rfl

theorem groupBy_concat (xs : List α) (x : α) : groupBy key (xs ++ [x]) = (groupBy key xs).pushAt (key x) x := by
  rw [groupBy, List.foldl_append]
  rfl

/-- **Groups.** A key is present when some item has it, and then reads all the items that have it, in order. -/
theorem groupBy_lookup (xs : List α) (k : κ) :
    (groupBy key xs).lookup k = if xs.filter (key · = k) = [] then none else some (xs.filter (key · = k)) := by
  induction xs using List.reverseRecOn with
  | nil => rfl
  | append_singleton xs x ih =>
    rw [groupBy_concat, lookup_pushAt, List.filter_append]
    by_cases hk : k = key x
    · subst hk
      have hgroup : ((groupBy key xs).lookup (key x)).getD [] = xs.filter (key · = key x) := by
        rw [ih]
        split
        · rename_i hnil
          rw [hnil]
          rfl
        · rfl
      simp [hgroup]
    · simp [hk, Ne.symm hk, ih]

theorem mem_groupBy {xs : List α} {k : κ} : k ∈ groupBy key xs ↔ ∃ x ∈ xs, key x = k := by
  rw [← AList.lookup_isSome, groupBy_lookup]
  split
  · rename_i h
    simpa using List.filter_eq_nil_iff.1 h
  · rename_i h
    simpa [List.filter_eq_nil_iff] using h

theorem mem_entries_groupBy {xs : List α} {e : Σ _ : κ, List α} :
    e ∈ (groupBy key xs).entries ↔ (∃ x ∈ xs, key x = e.1) ∧ e.2 = xs.filter (key · = e.1) := by
  obtain ⟨k, g⟩ := e
  rw [← AList.mem_lookup_iff, ← mem_groupBy, ← AList.lookup_isSome, groupBy_lookup]
  split
  · simp
  · simp [eq_comm]

/-- The groups have the keys of the items. -/
theorem keys_groupBy_perm (xs : List α) : ((groupBy key xs).entries.map (·.1)).Perm (xs.map key).dedup := by
  have hnodup : ((groupBy key xs).entries.map (·.1)).Nodup := (groupBy key xs).nodupKeys
  refine (List.perm_ext_iff_of_nodup hnodup (List.nodup_dedup _)).2 fun k => ?_
  have hkeys : k ∈ (groupBy key xs).entries.map (·.1) ↔ k ∈ groupBy key xs := (AList.mem_keys).symm
  rw [hkeys, mem_groupBy, List.mem_dedup, List.mem_map]

/-- A group has as many items as its key occurs. -/
theorem length_of_mem_groupBy {xs : List α} {e : Σ _ : κ, List α} (he : e ∈ (groupBy key xs).entries) :
    e.2.length = (xs.map key).count e.1 := by
  rw [(mem_entries_groupBy.1 he).2, ← List.countP_eq_length_filter, List.count, List.countP_map]
  apply List.countP_congr
  intro x _
  simp

/-- Items are, up to order, the groups of the keys, when each key is listed once. -/
theorem flatMap_filter_perm (xs : List α) : ∀ {ks : List κ}, ks.Nodup → (∀ x ∈ xs, key x ∈ ks) →
    (ks.flatMap fun k => xs.filter (key · = k)).Perm xs := by
  intro ks
  induction ks generalizing xs with
  | nil =>
    intro _ h
    cases xs with
    | nil => exact .refl _
    | cons x xs => exact absurd (h x List.mem_cons_self) List.not_mem_nil
  | cons k ks ih =>
    intro hd h
    obtain ⟨hk, hks⟩ := List.nodup_cons.1 hd
    have hrest := ih (xs.filter fun x => !decide (key x = k)) hks fun x hx => by
      obtain ⟨hx, hne⟩ := List.mem_filter.1 hx
      exact (List.mem_cons.1 (h x hx)).resolve_left (by simpa using hne)
    have hgroups : (ks.flatMap fun k' => (xs.filter fun x => !decide (key x = k)).filter (key · = k')) =
        ks.flatMap fun k' => xs.filter (key · = k') := by
      apply List.flatMap_congr
      intro k' hk'
      rw [List.filter_filter]
      apply List.filter_congr
      intro x _
      have hne : k' ≠ k := fun he => hk (he ▸ hk')
      by_cases hx : key x = k'
      · simp [hx, hne]
      · simp [hx]
    rw [List.flatMap_cons, ← hgroups]
    exact (hrest.append_left _).trans (List.filter_append_perm _ _)

end Grouping

/-! ## Collecting -/

/-- Inserting the values of distinct keys into an empty map. -/
theorem lookup_foldl_insert {ν' : Type} (value : (Σ _ : κ, ν) → ν') {es : List (Σ _ : κ, ν)}
    (hd : (es.map (·.1)).Nodup) {k : κ} {v : ν'} :
    (es.foldl (fun (m : HashMap κ ν') e => m.insert e.1 (value e)) ∅).lookup k = some v ↔
      ∃ e ∈ es, e.1 = k ∧ value e = v := by
  induction es using List.reverseRecOn with
  | nil => simp
  | append_singleton es e ih =>
    rw [List.map_append, List.nodup_append] at hd
    rw [List.foldl_append, List.foldl_cons, List.foldl_nil]
    by_cases hk : k = e.1
    · subst hk
      rw [AList.lookup_insert, Option.some.injEq]
      refine ⟨fun h => ⟨e, by simp, rfl, h⟩, fun ⟨e', he', hkey, hv⟩ => ?_⟩
      rcases List.mem_append.1 he' with he' | he'
      · exact absurd hkey (hd.2.2 _ (List.mem_map_of_mem he') _ (by simp))
      · rwa [List.mem_singleton.1 he'] at hv
    · rw [AList.lookup_insert_ne hk, ih hd.1]
      constructor
      · rintro ⟨e', he', h⟩
        exact ⟨e', List.mem_append_left _ he', h⟩
      · rintro ⟨e', he', hkey, hv⟩
        rcases List.mem_append.1 he' with he' | he'
        · exact ⟨e', he', hkey, hv⟩
        · rw [List.mem_singleton.1 he'] at hkey
          exact absurd hkey.symm hk

end HashMap
