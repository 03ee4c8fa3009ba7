import Mathlib.Data.List.Induction
import Mathlib.Data.List.Nodup

/-!
# Keyed tables

A table is a list of rows whose keys are pairwise distinct; the list order is the insertion order. The write
statements of a relational table keep the keys distinct by construction:

- `deleteWhere`, `updateWhere` and `upsert` always succeed;
- `insertAll` appends rows and fails on a duplicate key (`insertAll_eq_some`).
-/

/-- A table with the key `key`. -/
@[ext] structure Table {ρ κ : Type} (key : ρ → κ) where
  rows : List ρ
  /-- no two rows have the same key -/
  keyed : (rows.map key).Nodup

namespace Table

variable {ρ κ : Type} {key : ρ → κ}

theorem rows_injective {t t' : Table key} (h : t.rows = t'.rows) : t = t' := Table.ext h

/-- The empty table. -/
def empty : Table key := ⟨[], by simp⟩

@[simp] theorem empty_rows : (empty : Table key).rows = [] := rfl

/-- Rows with the same key are equal. -/
theorem eq_of_key {t : Table key} {r r' : ρ} (hr : r ∈ t.rows) (hr' : r' ∈ t.rows) (h : key r = key r') : r = r' :=
  List.inj_on_of_nodup_map t.keyed hr hr' h

/-- The same rows in another order. -/
def ofPerm (t : Table key) (rows : List ρ) (h : rows.Perm t.rows) : Table key :=
  ⟨rows, (h.map key).nodup_iff.2 t.keyed⟩

@[simp] theorem ofPerm_rows (t : Table key) (rows : List ρ) (h : rows.Perm t.rows) :
    (t.ofPerm rows h).rows = rows := rfl

/-! ## Delete -/

/-- `DELETE FROM t WHERE p`. -/
def deleteWhere (t : Table key) (p : ρ → Bool) : Table key :=
  ⟨t.rows.filter fun r => !p r, (t.keyed.sublist (List.filter_sublist.map key))⟩

@[simp] theorem deleteWhere_rows (t : Table key) (p : ρ → Bool) :
    (t.deleteWhere p).rows = t.rows.filter fun r => !p r := rfl

/-! ## Update -/

/-- `UPDATE t SET … WHERE p`, for an update `f` that keeps the key. -/
def updateWhere (t : Table key) (p : ρ → Bool) (f : ρ → ρ) (hf : ∀ r, key (f r) = key r) : Table key :=
  ⟨t.rows.map fun r => if p r then f r else r, by
    have : key ∘ (fun r => if p r then f r else r) = key := by
      funext r
      by_cases h : p r <;> simp [h, hf]
    rw [List.map_map, this]
    exact t.keyed⟩

@[simp] theorem updateWhere_rows (t : Table key) (p : ρ → Bool) (f : ρ → ρ) (hf : ∀ r, key (f r) = key r) :
    (t.updateWhere p f hf).rows = t.rows.map fun r => if p r then f r else r := rfl

/-! ## Insert -/

/-- The table with one more row, whose key is new. -/
def push (t : Table key) (r : ρ) (h : key r ∉ t.rows.map key) : Table key :=
  ⟨t.rows ++ [r], by
    rw [List.map_append, List.nodup_append]
    refine ⟨t.keyed, by simp, fun a ha b hb => ?_⟩
    rintro rfl
    exact h (by simpa [List.mem_singleton.1 hb] using ha)⟩

variable [DecidableEq κ]

/-- `INSERT INTO t`: a duplicate key fails. -/
def insert (t : Table key) (r : ρ) : Option (Table key) :=
  if h : key r ∈ t.rows.map key then none else some (t.push r h)

/-- Insert the rows one after the other. -/
def insertAll (t : Table key) (rs : List ρ) : Option (Table key) := rs.foldlM insert t

/-- **Insertion appends**, and fails exactly when the appended rows would not be keyed. -/
theorem insertAll_eq_some {rs : List ρ} {t t' : Table key} : t.insertAll rs = some t' ↔ t'.rows = t.rows ++ rs := by
  induction rs generalizing t with
  | nil =>
    simp only [insertAll, List.foldlM_nil, Option.pure_def, Option.some.injEq, List.append_nil]
    exact ⟨fun h => by rw [h], fun h => rows_injective h.symm⟩
  | cons r rs ih =>
    simp only [insertAll, List.foldlM_cons, insert]
    split
    · rename_i hk
      refine ⟨nofun, fun h => ?_⟩
      -- the appended rows repeat a key, which `t'` excludes
      have hnd := t'.keyed
      rw [h, List.map_append, List.map_cons, List.nodup_append] at hnd
      exact absurd rfl (hnd.2.2 _ hk _ List.mem_cons_self)
    · rename_i hk
      have := ih (t := t.push r hk)
      simpa [insertAll, push] using this

/-! ## Upsert -/

/-- `INSERT INTO t … ON CONFLICT (key) DO UPDATE`: replace the row with this key, or append it. -/
def upsert (t : Table key) (r : ρ) : Table key :=
  if h : key r ∈ t.rows.map key then
    ⟨t.rows.map fun x => if key x = key r then r else x, by
      have : key ∘ (fun x => if key x = key r then r else x) = key := by
        funext x
        by_cases hx : key x = key r <;> simp [hx]
      rw [List.map_map, this]
      exact t.keyed⟩
  else t.push r h

/-- After an upsert the table holds the row and every row with another key. -/
theorem mem_upsert {t : Table key} {r x : ρ} : x ∈ (t.upsert r).rows ↔ x = r ∨ (x ∈ t.rows ∧ key x ≠ key r) := by
  unfold upsert
  split
  · rename_i h
    obtain ⟨y, hy, hyr⟩ := List.mem_map.1 h
    simp only [List.mem_map]
    constructor
    · rintro ⟨z, hz, rfl⟩
      by_cases hk : key z = key r
      · exact Or.inl (by rw [if_pos hk])
      · exact Or.inr (by rw [if_neg hk]; exact ⟨hz, hk⟩)
    · rintro (rfl | ⟨hx, hk⟩)
      · exact ⟨y, hy, by rw [if_pos hyr]⟩
      · exact ⟨x, hx, by rw [if_neg hk]⟩
  · rename_i h
    show x ∈ t.rows ++ [r] ↔ _
    rw [List.mem_append, List.mem_singleton]
    constructor
    · rintro (hx | rfl)
      · exact Or.inr ⟨hx, fun hk => h (hk ▸ List.mem_map_of_mem hx)⟩
      · exact Or.inl rfl
    · rintro (rfl | ⟨hx, _⟩)
      · exact Or.inr rfl
      · exact Or.inl hx

/-- An upsert leaves the rows with another key where they are. -/
theorem filter_upsert_of_ne {t : Table key} {r : ρ} {p : ρ → Bool} (hp : ∀ x, key x = key r → p x = false) :
    (t.upsert r).rows.filter p = t.rows.filter p := by
  unfold upsert
  split
  · simp only
    induction t.rows with
    | nil => rfl
    | cons x xs ih =>
      by_cases hx : key x = key r
      · simp [hx, hp r rfl, hp x hx, ih]
      · simp [hx, List.filter_cons, ih]
  · show (t.rows ++ [r]).filter p = _
    simp [hp r rfl]

/-- The row with the upserted key is the upserted row. -/
theorem filter_upsert_eq {t : Table key} {r : ρ} {p : ρ → Bool} (hp : ∀ x, p x = true ↔ key x = key r) :
    (t.upsert r).rows.filter p = [r] := by
  have hmem : ∀ x, x ∈ (t.upsert r).rows.filter p ↔ x = r := fun x => by
    rw [List.mem_filter, mem_upsert, hp]
    constructor
    · rintro ⟨rfl | ⟨_, hne⟩, he⟩
      · rfl
      · exact absurd he hne
    · rintro rfl
      exact ⟨Or.inl rfl, rfl⟩
  have hnodup : ((t.upsert r).rows.filter p).Nodup := ((t.upsert r).keyed.of_map key).filter p
  exact List.perm_singleton.1 ((List.perm_ext_iff_of_nodup hnodup (List.nodup_singleton r)).2
    fun x => by rw [hmem, List.mem_singleton])

/-- Upserting a row that is already there changes nothing. -/
theorem upsert_of_mem {t : Table key} {r : ρ} (h : r ∈ t.rows) : t.upsert r = t := by
  have hk : key r ∈ t.rows.map key := List.mem_map_of_mem h
  refine rows_injective ?_
  simp only [upsert, hk, dif_pos]
  conv => rhs; rw [← List.map_id t.rows]
  apply List.map_congr_left
  intro x hx
  by_cases hxr : key x = key r
  · rw [if_pos hxr]
    exact eq_of_key h hx hxr.symm
  · rw [if_neg hxr]
    rfl

/-! ## Reading by key -/

/-- The row with the key `k`. -/
def get (t : Table key) (k : κ) : Option ρ := t.rows.find? (key · = k)

theorem get_eq_some {t : Table key} {k : κ} {r : ρ} : t.get k = some r ↔ r ∈ t.rows ∧ key r = k := by
  constructor
  · intro h
    have hk := List.find?_some h
    exact ⟨List.mem_of_find?_eq_some h, of_decide_eq_true hk⟩
  · rintro ⟨hr, rfl⟩
    cases h : t.get (key r) with
    | none => exact absurd rfl (of_decide_eq_false (eq_false_of_ne_true (List.find?_eq_none.1 h r hr)))
    | some r' =>
      have hr' : r' ∈ t.rows := List.mem_of_find?_eq_some h
      have hk := List.find?_some h
      rw [eq_of_key hr' hr (of_decide_eq_true hk)]

/-- After an upsert, the key of the row reads the row, and every other key reads what it read before. -/
theorem get_upsert (t : Table key) (r : ρ) (k : κ) : (t.upsert r).get k = if k = key r then some r else t.get k := by
  by_cases hk : k = key r
  · rw [if_pos hk]
    exact get_eq_some.2 ⟨mem_upsert.2 (Or.inl rfl), hk.symm⟩
  · rw [if_neg hk]
    ext x
    simp only [get_eq_some, mem_upsert]
    constructor
    · rintro ⟨rfl | ⟨hx, _⟩, rfl⟩
      · exact absurd rfl hk
      · exact ⟨hx, rfl⟩
    · rintro ⟨hx, rfl⟩
      exact ⟨Or.inr ⟨hx, hk⟩, rfl⟩

/-- Upsert the rows one after the other. -/
def upsertAll (t : Table key) (rs : List ρ) : Table key := rs.foldl upsert t

/-- Many upserts: a key of an upserted row reads one of these; every other key reads what it read before. -/
theorem get_upsertAll (t : Table key) (rs : List ρ) (k : κ) :
    (∃ r ∈ rs, key r = k ∧ (t.upsertAll rs).get k = some r) ∨
    ((∀ r ∈ rs, key r ≠ k) ∧ (t.upsertAll rs).get k = t.get k) := by
  induction rs using List.reverseRecOn with
  | nil => exact Or.inr ⟨nofun, rfl⟩
  | append_singleton rs r ih =>
    have hget : (t.upsertAll (rs ++ [r])).get k = if k = key r then some r else (t.upsertAll rs).get k := by
      rw [← get_upsert, upsertAll, List.foldl_append]
      rfl
    rw [hget]
    by_cases hk : k = key r
    · exact Or.inl ⟨r, by simp, hk.symm, if_pos hk⟩
    · rw [if_neg hk]
      rcases ih with ⟨r', hr', hkey, hread⟩ | ⟨hno, hread⟩
      · exact Or.inl ⟨r', List.mem_append_left _ hr', hkey, hread⟩
      · refine Or.inr ⟨fun r' hr' => ?_, hread⟩
        rcases List.mem_append.1 hr' with hr' | hr'
        · exact hno r' hr'
        · rw [List.mem_singleton.1 hr']
          exact Ne.symm hk

/-- After upserts the table has upserted rows and old ones. -/
theorem mem_or_mem_of_upsertAll {t : Table key} {rs : List ρ} {x : ρ} (h : x ∈ (t.upsertAll rs).rows) :
    x ∈ rs ∨ x ∈ t.rows := by
  have hx : (t.upsertAll rs).get (key x) = some x := get_eq_some.2 ⟨h, rfl⟩
  rcases t.get_upsertAll rs (key x) with ⟨r, hr, _, hget⟩ | ⟨_, hget⟩
  · rw [hget, Option.some.injEq] at hx
    exact Or.inl (hx ▸ hr)
  · exact Or.inr (get_eq_some.1 (hget.symm.trans hx)).1

/-- Upserts add the keys of their rows, and remove none. -/
theorem exists_upsertAll {t : Table key} {rs : List ρ} {k : κ} (h : (∃ x ∈ t.rows, key x = k) ∨ ∃ x ∈ rs, key x = k) :
    ∃ x ∈ (t.upsertAll rs).rows, key x = k := by
  rcases t.get_upsertAll rs k with ⟨r, _, hkey, hget⟩ | ⟨hno, hget⟩
  · exact ⟨r, (get_eq_some.1 hget).1, hkey⟩
  · obtain ⟨x, hx, hkey⟩ := h.resolve_right fun ⟨x, hx, hkey⟩ => hno x hx hkey
    exact ⟨x, (get_eq_some.1 (hget.trans (get_eq_some.2 ⟨hx, hkey⟩))).1, hkey⟩

/-- An upserted row is read back, if no other upserted row has its key. -/
theorem get_upsertAll_of_mem (t : Table key) {rs : List ρ} (hinj : ∀ r ∈ rs, ∀ r' ∈ rs, key r = key r' → r = r') {r : ρ}
    (hr : r ∈ rs) : (t.upsertAll rs).get (key r) = some r := by
  rcases t.get_upsertAll rs (key r) with ⟨r', hr', hkey, hget⟩ | ⟨hno, _⟩
  · rw [hget, hinj r' hr' r hr hkey]
  · exact absurd rfl (hno r hr)

/-- The order of upserts with distinct keys does not matter. -/
theorem get_upsertAll_congr {t t' : Table key} {rs rs' : List ρ} (hmem : ∀ r, r ∈ rs ↔ r ∈ rs')
    (hinj : ∀ r ∈ rs, ∀ r' ∈ rs, key r = key r' → r = r') {k : κ} (h : (∀ r ∈ rs, key r ≠ k) → t.get k = t'.get k) :
    (t.upsertAll rs).get k = (t'.upsertAll rs').get k := by
  rcases t.get_upsertAll rs k with ⟨r, hr, rfl, hget⟩ | ⟨hno, hget⟩
  · rw [hget, t'.get_upsertAll_of_mem (by simpa only [hmem] using hinj) ((hmem r).1 hr)]
  · rcases t'.get_upsertAll rs' k with ⟨r', hr', hkey, _⟩ | ⟨_, hget'⟩
    · exact absurd hkey (hno r' ((hmem r').2 hr'))
    · rw [hget, hget', h hno]

end Table
