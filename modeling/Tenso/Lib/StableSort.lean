import Mathlib.Data.List.Sort
import Mathlib.Order.Defs.LinearOrder
import Tenso.Lib.HashMap

/-!
# Stable sorts

A stable sort by a key keeps the order of items with the same key (`filter_insertionSort`). So the first and the last
item that a property leaves in the sorted list are those that the list itself has first and last with the least and
with the greatest key (`head?_filter_sort`, `getLast?_filter_sort`).

Where a list is put together from groups in some order, its first item has the same value in every order exactly when
the first items of the groups have one value (`HeadsAgree`); the same holds for the last item (`LastsAgree`).
-/

namespace StableSort

variable {α : Type}

/-- Stability: items that are pairwise related keep their order. -/
theorem filter_insertionSort {r : α → α → Prop} [DecidableRel r] {l : List α} {p : α → Bool}
    (h : (l.filter p).Pairwise r) : (l.insertionSort r).filter p = l.filter p := by
  have hsub : (l.filter p).Sublist ((l.insertionSort r).filter p) := by
    simpa using (List.sublist_insertionSort h List.filter_sublist).filter p
  have hperm : ((l.insertionSort r).filter p).Perm (l.filter p) := (List.perm_insertionSort r l).filter p
  exact (hsub.eq_of_length hperm.length_eq.symm).symm

/-! ## The first and the last item -/

section Ends

variable {κ : Type} [LinearOrder κ] {key : α → κ}

theorem sort_pairwise (key : α → κ) (l : List α) :
    (l.insertionSort fun x y => key x ≤ key y).Pairwise fun x y => key x ≤ key y := by
  have : Std.Total fun x y : α => key x ≤ key y := ⟨fun x y => le_total (key x) (key y)⟩
  have : IsTrans α fun x y => key x ≤ key y := ⟨fun _ _ _ => le_trans⟩
  exact List.pairwise_insertionSort _ l

/-- Items with one key are not reordered. -/
theorem filter_sort_eq (l : List α) (p : α → Bool) (t : κ) :
    ((l.insertionSort fun x y => key x ≤ key y).filter p).filter (key · = t) = (l.filter p).filter (key · = t) := by
  rw [List.filter_filter, List.filter_filter]
  apply filter_insertionSort
  refine List.pairwise_of_forall_mem_list fun x hx y hy => ?_
  simp only [List.mem_filter, Bool.and_eq_true, decide_eq_true_eq] at hx hy
  exact le_of_eq (hx.2.1.trans hy.2.1.symm)

/-- The first of some sorted items has the least key. -/
theorem head?_of_pairwise {l : List α} (hl : l.Pairwise fun x y => key x ≤ key y) {t : κ} (hex : ∃ x ∈ l, key x = t)
    (hle : ∀ x ∈ l, t ≤ key x) : l.head? = (l.filter (key · = t)).head? := by
  cases l with
  | nil => rfl
  | cons x l =>
    have hx : key x = t := by
      obtain ⟨y, hy, rfl⟩ := hex
      rcases List.mem_cons.1 hy with rfl | hy
      · rfl
      · exact le_antisymm ((List.pairwise_cons.1 hl).1 y hy) (hle x List.mem_cons_self)
    simp [hx]

/-- The last of some sorted items has the greatest key. -/
theorem getLast?_of_pairwise {l : List α} (hl : l.Pairwise fun x y => key x ≤ key y) {t : κ}
    (hex : ∃ x ∈ l, key x = t) (hle : ∀ x ∈ l, key x ≤ t) : l.getLast? = (l.filter (key · = t)).getLast? := by
  rcases List.eq_nil_or_concat' l with rfl | ⟨l, x, rfl⟩
  · rfl
  · have hx : key x = t := by
      obtain ⟨y, hy, rfl⟩ := hex
      rcases List.mem_append.1 hy with hy | hy
      · exact le_antisymm (hle x (by simp)) ((List.pairwise_append.1 hl).2.2 y hy x (by simp))
      · rw [List.mem_singleton.1 hy]
    simp [List.filter_append, hx]

/-- The first item with a property in the sorted list is the first one in the list with the least key. -/
theorem head?_filter_sort {l : List α} {p : α → Bool} {t : κ} (hex : ∃ x ∈ l.filter p, key x = t)
    (hle : ∀ x ∈ l.filter p, t ≤ key x) :
    ((l.insertionSort fun x y => key x ≤ key y).filter p).head? = ((l.filter p).filter (key · = t)).head? := by
  have hperm := (List.perm_insertionSort (fun x y => key x ≤ key y) l).filter p
  rw [← filter_sort_eq]
  exact head?_of_pairwise ((sort_pairwise key l).filter p) (by simpa only [hperm.mem_iff] using hex)
    fun x hx => hle x (hperm.mem_iff.1 hx)

/-- **The last item** with a property in the sorted list is the last one in the list with the greatest key. -/
theorem getLast?_filter_sort {l : List α} {p : α → Bool} {t : κ} (hex : ∃ x ∈ l.filter p, key x = t)
    (hle : ∀ x ∈ l.filter p, key x ≤ t) :
    ((l.insertionSort fun x y => key x ≤ key y).filter p).getLast? = ((l.filter p).filter (key · = t)).getLast? := by
  have hperm := (List.perm_insertionSort (fun x y => key x ≤ key y) l).filter p
  rw [← filter_sort_eq]
  exact getLast?_of_pairwise ((sort_pairwise key l).filter p) (by simpa only [hperm.mem_iff] using hex)
    fun x hx => hle x (hperm.mem_iff.1 hx)

/-- `x` is the earliest item of `l`: no item has a smaller key, and none before it has its key. -/
def Earliest (key : α → κ) (l : List α) (x : α) : Prop :=
  ∃ pre post, l = pre ++ x :: post ∧ (∀ y ∈ pre, key x < key y) ∧ ∀ y ∈ post, key x ≤ key y

/-- `x` is the latest item of `l`: no item has a greater key, and none after it has its key. -/
def Latest (key : α → κ) (l : List α) (x : α) : Prop :=
  ∃ pre post, l = pre ++ x :: post ∧ (∀ y ∈ pre, key y ≤ key x) ∧ ∀ y ∈ post, key y < key x

/-- The first sorted item is the earliest of the list. -/
theorem earliest_of_head? {l : List α} {p : α → Bool} {x : α}
    (h : ((l.insertionSort fun x y => key x ≤ key y).filter p).head? = some x) : Earliest key (l.filter p) x := by
  have hperm := (List.perm_insertionSort (fun x y => key x ≤ key y) l).filter p
  obtain ⟨rest, hrest⟩ := List.head?_eq_some_iff.1 h
  have hle : ∀ y ∈ l.filter p, key x ≤ key y := by
    intro y hy
    rw [← hperm.mem_iff, hrest] at hy
    have hsorted := (sort_pairwise key l).filter p
    rw [hrest, List.pairwise_cons] at hsorted
    rcases List.mem_cons.1 hy with rfl | hy
    · exact le_rfl
    · exact hsorted.1 y hy
  have hmem : x ∈ l.filter p := by
    rw [← hperm.mem_iff, hrest]
    exact List.mem_cons_self
  have hfirst : ((l.filter p).filter (key · = key x)).head? = some x :=
    (head?_filter_sort ⟨x, hmem, rfl⟩ hle).symm.trans h
  obtain ⟨rest', hrest'⟩ := List.head?_eq_some_iff.1 hfirst
  obtain ⟨pre, post, hl, hpre, _, _⟩ := List.filter_eq_cons_iff.1 hrest'
  rw [hl, List.forall_mem_append, List.forall_mem_cons] at hle
  refine ⟨pre, post, hl, fun y hy => lt_of_le_of_ne (hle.1 y hy) fun he => hpre y hy ?_, hle.2.2⟩
  exact decide_eq_true he.symm

/-- The last sorted item is the latest of the list. -/
theorem latest_of_getLast? {l : List α} {p : α → Bool} {x : α}
    (h : ((l.insertionSort fun x y => key x ≤ key y).filter p).getLast? = some x) : Latest key (l.filter p) x := by
  have hperm := (List.perm_insertionSort (fun x y => key x ≤ key y) l).filter p
  obtain ⟨rest, hrest⟩ := List.getLast?_eq_some_iff.1 h
  have hle : ∀ y ∈ l.filter p, key y ≤ key x := by
    intro y hy
    rw [← hperm.mem_iff, hrest] at hy
    have hsorted := (sort_pairwise key l).filter p
    rw [hrest, List.pairwise_append] at hsorted
    rcases List.mem_append.1 hy with hy | hy
    · exact hsorted.2.2 y hy x (by simp)
    · rw [List.mem_singleton.1 hy]
  have hmem : x ∈ l.filter p := by
    rw [← hperm.mem_iff, hrest]
    simp
  have hlast : ((l.filter p).reverse.filter (key · = key x)).head? = some x := by
    rw [List.filter_reverse, List.head?_reverse]
    exact (getLast?_filter_sort ⟨x, hmem, rfl⟩ hle).symm.trans h
  obtain ⟨rest', hrest'⟩ := List.head?_eq_some_iff.1 hlast
  obtain ⟨post, pre, hl, hpost, _, _⟩ := List.filter_eq_cons_iff.1 hrest'
  have hl' : l.filter p = pre.reverse ++ x :: post.reverse := by
    rw [← List.reverse_reverse (l.filter p), hl]
    simp
  rw [hl', List.forall_mem_append, List.forall_mem_cons] at hle
  refine ⟨pre.reverse, post.reverse, hl', hle.1, fun y hy => lt_of_le_of_ne (hle.2.2 y hy) fun he => ?_⟩
  exact hpost y (List.mem_reverse.1 hy) (decide_eq_true he)

end Ends

/-- A list in strictly increasing order is given by its members. -/
theorem eq_of_mem_iff {κ : Type} [Preorder κ] {key : α → κ} {l l' : List α} (h : l.Pairwise fun x y => key x < key y)
    (h' : l'.Pairwise fun x y => key x < key y) (hmem : ∀ x, x ∈ l ↔ x ∈ l') : l = l' := by
  have hne : ∀ x y : α, key x < key y → x ≠ y := by
    rintro x y hlt rfl
    exact lt_irrefl _ hlt
  have hperm : l.Perm l' := (List.perm_ext_iff_of_nodup (h.imp (hne _ _)) (h'.imp (hne _ _))).2 hmem
  exact hperm.eq_of_pairwise (fun _ _ _ _ hlt hgt => absurd hlt hgt.asymm) h h'

/-- Sorted items begin with those of the least key. -/
theorem filter_append_of_least {κ : Type} [LinearOrder κ] {key : α → κ} {l : List α}
    (hl : l.Pairwise fun x y => key x ≤ key y) {k : κ} (hk : ∀ x ∈ l, k ≤ key x) :
    l.filter (key · = k) ++ l.filter (key · ≠ k) = l := by
  induction l with
  | nil => rfl
  | cons x l ih =>
    rw [List.pairwise_cons] at hl
    rw [List.forall_mem_cons] at hk
    by_cases hx : key x = k
    · simpa [hx] using ih hl.2 hk.2
    · -- no item of the rest has the least key either
      have hlt : k < key x := lt_of_le_of_ne hk.1 (Ne.symm hx)
      have hrest : ∀ y ∈ l, key y ≠ k := fun y hy => (hlt.trans_le (hl.1 y hy)).ne'
      have hnone : l.filter (key · = k) = [] := List.filter_eq_nil_iff.2 fun y hy => by simpa using hrest y hy
      have hall : l.filter (key · ≠ k) = l := List.filter_eq_self.2 fun y hy => by simpa using hrest y hy
      rw [List.filter_cons_of_neg (by simpa using hx), List.filter_cons_of_pos (by simpa using hx), hnone, hall]
      rfl

/-- Items in the order of their keys are the groups of the keys, one after the other. -/
theorem flatMap_filter_of_sorted {κ : Type} [LinearOrder κ] {key : α → κ} {l : List α}
    (hl : l.Pairwise fun x y => key x ≤ key y) {ks : List κ} (hks : ks.Pairwise (· < ·)) (hmem : ∀ x ∈ l, key x ∈ ks) :
    (ks.flatMap fun k => l.filter (key · = k)) = l := by
  induction ks generalizing l with
  | nil =>
    cases l with
    | nil => rfl
    | cons x l => exact absurd (hmem x List.mem_cons_self) List.not_mem_nil
  | cons k ks ih =>
    rw [List.pairwise_cons] at hks
    have hleast : ∀ x ∈ l, k ≤ key x := by
      intro x hx
      rcases List.mem_cons.1 (hmem x hx) with he | hk
      · exact he.ge
      · exact (hks.1 _ hk).le
    have hrest := ih (hl.filter (key · ≠ k)) hks.2 fun x hx => by
      obtain ⟨hx, hne⟩ := List.mem_filter.1 hx
      exact (List.mem_cons.1 (hmem x hx)).resolve_left (of_decide_eq_true hne)
    have hgroups : (ks.flatMap fun k' => (l.filter (key · ≠ k)).filter (key · = k')) =
        ks.flatMap fun k' => l.filter (key · = k') := by
      apply List.flatMap_congr
      intro k' hk'
      have hne := (hks.1 k' hk').ne'
      rw [List.filter_filter]
      apply List.filter_congr
      intro x _
      by_cases hx : key x = k' <;> simp [hx, hne]
    rw [List.flatMap_cons, ← hgroups, hrest, filter_append_of_least hl hleast]

/-! ## Groups in some order -/

section Groups

variable {ν : Type} {val : α → ν}

/-- The first items of the groups have one value. -/
def HeadsAgree (val : α → ν) (gs : List (List α)) : Prop :=
  ∀ g ∈ gs, ∀ g' ∈ gs, ∀ x ∈ g.head?, ∀ x' ∈ g'.head?, val x = val x'

/-- The last items of the groups have one value. -/
def LastsAgree (val : α → ν) (gs : List (List α)) : Prop :=
  ∀ g ∈ gs, ∀ g' ∈ gs, ∀ x ∈ g.getLast?, ∀ x' ∈ g'.getLast?, val x = val x'

theorem headsAgree_reverse {gs : List (List α)} : HeadsAgree val (gs.map List.reverse) ↔ LastsAgree val gs := by
  simp only [HeadsAgree, LastsAgree, List.forall_mem_map, List.head?_reverse]

/-- The first of all items is the first of some group. -/
theorem exists_head?_of_flatten {gs : List (List α)} {x : α} (h : gs.flatten.head? = some x) :
    ∃ g ∈ gs, g.head? = some x := by
  rw [List.head?_flatten] at h
  exact List.exists_of_findSome?_eq_some h

/-- Groups that agree give the same first value in every order. -/
theorem HeadsAgree.head?_flatten {gs gs' : List (List α)} (h : HeadsAgree val gs) (hp : gs'.Perm gs) :
    gs'.flatten.head?.map val = gs.flatten.head?.map val := by
  cases hx : gs.flatten.head? with
  | none =>
    rw [List.head?_eq_none_iff] at hx
    have : gs'.flatten = [] := (hx ▸ hp.flatten).eq_nil
    simp [this]
  | some x =>
    cases hx' : gs'.flatten.head? with
    | none =>
      rw [List.head?_eq_none_iff] at hx'
      have : gs.flatten = [] := (hx' ▸ hp.flatten.symm).eq_nil
      simp [this] at hx
    | some x' =>
      obtain ⟨g, hg, hgx⟩ := exists_head?_of_flatten hx
      obtain ⟨g', hg', hgx'⟩ := exists_head?_of_flatten hx'
      exact congrArg some (h g' (hp.mem_iff.1 hg') g hg x' hgx' x hgx)

/-- Groups that agree give the same last value in every order. -/
theorem LastsAgree.getLast?_flatten {gs gs' : List (List α)} (h : LastsAgree val gs) (hp : gs'.Perm gs) :
    gs'.flatten.getLast?.map val = gs.flatten.getLast?.map val := by
  have hrev : ((gs'.map List.reverse).reverse).Perm (gs.map List.reverse).reverse :=
    (List.reverse_perm _).trans ((hp.map _).trans (List.reverse_perm _).symm)
  have hagree : HeadsAgree val (gs.map List.reverse).reverse := by
    have := headsAgree_reverse.2 h
    simpa [HeadsAgree] using this
  rw [List.getLast?_eq_head?_reverse, List.getLast?_eq_head?_reverse, List.reverse_flatten, List.reverse_flatten]
  exact hagree.head?_flatten hrev

variable {ε : Type} {es : List ε} {f : ε → List α}

/-- The first item of a group is the first of all in some order. -/
theorem exists_order_head? {e : ε} (he : e ∈ es) {x : α} (hx : (f e).head? = some x) :
    ∃ ord : HashMap.IterOrder, ((ord.iter es).flatMap f).head? = some x := by
  obtain ⟨ord, es', hord⟩ := HashMap.IterOrder.exists_first he
  exact ⟨ord, by simp [hord, hx]⟩

/-- The last item of a group is the last of all in some order. -/
theorem exists_order_getLast? {e : ε} (he : e ∈ es) {x : α} (hx : (f e).getLast? = some x) :
    ∃ ord : HashMap.IterOrder, ((ord.iter es).flatMap f).getLast? = some x := by
  obtain ⟨ord, es', hord⟩ := HashMap.IterOrder.exists_last he
  exact ⟨ord, by simp [hord, hx]⟩

end Groups

end StableSort
