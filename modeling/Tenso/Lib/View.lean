import Mathlib.Data.Multiset.Filter
import Mathlib.Data.Multiset.OrderedMonoid
import Mathlib.Tactic.Common

/-!
# Grouped views and their partial refresh

A view holds one aggregate for each key of a multiset of items: `View.of`. A partial refresh recomputes the view from
some of the items and overwrites the keys that these have (`View.refresh`).

For an aggregate that notices every further item (`Notices`), a refresh from `part` brings a view of the old items up
to date exactly when no item outside `part` shares a key with one in it and the keys of all new items are refreshed
(`refresh_eq_of`).
-/

namespace View

variable {α κ ν : Type} [DecidableEq κ] (key : α → κ) (agg : Multiset α → ν)

/-- The items of a key. -/
def group (items : Multiset α) (k : κ) : Multiset α := items.filter (key · = k)

/-- The view of the items: the aggregate of each group that is not empty. -/
def of (items : Multiset α) (k : κ) : Option ν :=
  if (group key items k).card = 0 then none else some (agg (group key items k))

/-- Overwrite the keys that the items of `part` have. -/
def refresh (view : κ → Option ν) (part : Multiset α) (k : κ) : Option ν := (of key agg part k).or (view k)

/-- The aggregate notices all further items with `p`. -/
def Notices (p : α → Prop) : Prop := ∀ s t : Multiset α, (∀ a ∈ t, p a) → s ≠ 0 → t ≠ 0 → agg (s + t) ≠ agg s

variable {key agg} {p : α → Prop}

theorem group_add (s t : Multiset α) (k : κ) : group key (s + t) k = group key s k + group key t k :=
  Multiset.filter_add _ s t

theorem mem_group {items : Multiset α} {k : κ} {a : α} : a ∈ group key items k ↔ a ∈ items ∧ key a = k :=
  Multiset.mem_filter

theorem group_eq_zero {items : Multiset α} {k : κ} : group key items k = 0 ↔ ∀ a ∈ items, key a ≠ k :=
  Multiset.filter_eq_nil

theorem of_eq_none {items : Multiset α} {k : κ} : of key agg items k = none ↔ group key items k = 0 := by
  unfold of
  split
  · rename_i h
    exact ⟨fun _ => Multiset.card_eq_zero.1 h, fun _ => rfl⟩
  · rename_i h
    exact ⟨nofun, fun h0 => absurd (Multiset.card_eq_zero.2 h0) h⟩

theorem of_eq_some {items : Multiset α} {k : κ} (h : group key items k ≠ 0) :
    of key agg items k = some (agg (group key items k)) :=
  if_neg fun h0 => h (Multiset.card_eq_zero.1 h0)

/-- Further items change the view at a key exactly when one of them has it. -/
theorem of_add_eq_iff (hagg : Notices agg p) {s t : Multiset α} (hp : ∀ a ∈ t, p a) {k : κ} :
    of key agg (s + t) k = of key agg s k ↔ group key t k = 0 := by
  constructor
  · intro h
    by_contra ht
    by_cases hs : group key s k = 0
    · rw [of_eq_none.2 hs, of_eq_none, group_add, hs, zero_add] at h
      exact ht h
    · have hst : group key (s + t) k ≠ 0 := by
        rw [group_add]
        exact fun h0 => hs (Multiset.le_zero.1 (h0 ▸ Multiset.le_add_right _ _))
      rw [of_eq_some hs, of_eq_some hst, group_add, Option.some.injEq] at h
      exact hagg _ _ (fun a ha => hp a (mem_group.1 ha).1) hs ht h
  · intro ht
    rw [of, of, group_add, ht, add_zero]

/-- The items are those of `part` and the `rest`, and also the `old` and the `new` ones: where no item of the rest
shares a key with one of `part` and `part` has the key of each new item, all items of a key are in `part`, or they are
old. -/
theorem group_split {old new part rest : Multiset α} (hsplit : old + new = part + rest)
    (hdisj : ∀ a ∈ part, ∀ b ∈ rest, key a ≠ key b) (hnew : ∀ b ∈ new, ∃ a ∈ part, key a = key b) (k : κ) :
    group key part k ≠ 0 ∧ group key (part + rest) k = group key part k ∨
      group key part k = 0 ∧ group key (part + rest) k = group key old k := by
  by_cases hpart : group key part k = 0
  · have hk : group key new k = 0 := group_eq_zero.2 fun b hb he => by
      obtain ⟨a, ha, hab⟩ := hnew b hb
      exact group_eq_zero.1 hpart a ha (hab.trans he)
    refine .inr ⟨hpart, ?_⟩
    rw [← hsplit, group_add, hk, add_zero]
  · have hk : group key rest k = 0 := by
      refine group_eq_zero.2 fun b hb he => hpart (group_eq_zero.2 fun a ha hak => ?_)
      exact hdisj a ha b hb (hak.trans he.symm)
    refine .inl ⟨hpart, ?_⟩
    rw [group_add, hk, add_zero]

variable (key) in
/-- **A partial refresh.** The items are those of `part` and the `rest`, and also the `old` and the `new` ones; a view
of the old items, refreshed from `part`, is up to date exactly when no item of the rest shares a key with one of `part`
and the key of each new item is refreshed. -/
theorem refresh_eq_of (hagg : Notices agg p) {old new part rest : Multiset α} (hsplit : old + new = part + rest)
    (hp : ∀ a ∈ part + rest, p a) :
    refresh key agg (of key agg old) part = of key agg (part + rest) ↔
      (∀ a ∈ part, ∀ b ∈ rest, key a ≠ key b) ∧ ∀ b ∈ new, ∃ a ∈ part, key a = key b := by
  have hrest : ∀ a ∈ rest, p a := fun a ha => hp a (Multiset.mem_add.2 (Or.inr ha))
  have hnew : ∀ a ∈ new, p a := fun a ha => hp a (hsplit ▸ Multiset.mem_add.2 (Or.inr ha))
  constructor
  · intro h
    refine ⟨fun a ha b hb he => ?_, fun b hb => ?_⟩
    · -- at the key of `a` the view shows `part` only
      have hk := congrFun h (key a)
      have hpart : group key part (key a) ≠ 0 := fun h0 => group_eq_zero.1 h0 a ha rfl
      rw [refresh, of_eq_some hpart, Option.some_or, ← of_eq_some hpart, eq_comm, of_add_eq_iff hagg hrest] at hk
      exact group_eq_zero.1 hk b hb he.symm
    · by_contra hno
      -- at the key of `b` the view still shows the old items
      have hpart : group key part (key b) = 0 := group_eq_zero.2 fun a ha he => hno ⟨a, ha, he⟩
      have hk := congrFun h (key b)
      rw [refresh, of_eq_none.2 hpart, Option.none_or, ← hsplit, eq_comm, of_add_eq_iff hagg hnew] at hk
      exact group_eq_zero.1 hk b hb rfl
  · rintro ⟨hdisj, hrefreshed⟩
    funext k
    rcases group_split hsplit hdisj hrefreshed k with ⟨hpart, hk⟩ | ⟨hpart, hk⟩
    · rw [refresh, of_eq_some hpart, Option.some_or, of, hk, if_neg fun h0 => hpart (Multiset.card_eq_zero.1 h0)]
    · rw [refresh, of_eq_none.2 hpart, Option.none_or, of, of, hk]

end View
