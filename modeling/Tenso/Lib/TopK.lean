import Mathlib.Data.List.Sort
import Mathlib.Data.List.TakeWhile
import Tenso.Lib.HashMap

/-!
# The heaviest items

`topK w k l`: the `k` heaviest items of a list, by a stable sort. No item that is left out is heavier than one of them
(`le_of_notMem_topK`). An item can only be among them if fewer than `k` items are heavier (`heavier_lt_of_mem_topK`),
and if the list starts with it, it is (`mem_topK_head`). So an item that some order of the list puts among the `k`
heaviest is one with fewer than `k` heavier ones (`exists_order_mem_topK_iff`).
-/

namespace TopK

variable {α : Type} {w : α → ℕ} {k : ℕ}

/-- The `k` heaviest items. -/
def topK (w : α → ℕ) (k : ℕ) (l : List α) : List α := (l.insertionSort fun a b => w b ≤ w a).take k

/-- The number of items that are heavier than `n`. -/
def heavier (w : α → ℕ) (n : ℕ) (l : List α) : ℕ := l.countP fun a => n < w a

theorem mem_of_mem_topK {l : List α} {x : α} (h : x ∈ topK w k l) : x ∈ l :=
  (List.mem_insertionSort _).1 (List.mem_of_mem_take h)

theorem topK_subperm (w : α → ℕ) (k : ℕ) (l : List α) : (topK w k l).Subperm l :=
  (List.take_sublist _ _).subperm.trans (List.perm_insertionSort _ l).subperm

theorem length_topK (w : α → ℕ) (k : ℕ) (l : List α) : (topK w k l).length = min k l.length := by
  rw [topK, List.length_take, List.length_insertionSort]

theorem pairwise_sorted (w : α → ℕ) (l : List α) :
    (l.insertionSort fun a b => w b ≤ w a).Pairwise fun a b => w b ≤ w a := by
  have htrans : IsTrans α fun a b => w b ≤ w a := ⟨fun _ _ _ h₁ h₂ => Nat.le_trans h₂ h₁⟩
  have htotal : Std.Total fun a b : α => w b ≤ w a := ⟨fun a b => Nat.le_total (w b) (w a)⟩
  exact List.pairwise_insertionSort _ l

/-- The heavier items come first. -/
theorem pairwise_topK (w : α → ℕ) (k : ℕ) (l : List α) : (topK w k l).Pairwise fun a b => w b ≤ w a :=
  (pairwise_sorted w l).sublist (List.take_sublist _ _)

/-- An item that is left out is no heavier than the `k` heaviest. -/
theorem le_of_notMem_topK {l : List α} {x y : α} (hx : x ∈ l) (hno : x ∉ topK w k l) (hy : y ∈ topK w k l) :
    w x ≤ w y := by
  have hsorted := pairwise_sorted w l
  rw [← List.take_append_drop k (l.insertionSort _), List.pairwise_append] at hsorted
  have hdrop : x ∈ (l.insertionSort fun a b => w b ≤ w a).drop k := by
    have hmem := (List.mem_insertionSort (fun a b => w b ≤ w a)).2 hx
    rw [← List.take_append_drop k (l.insertionSort _), List.mem_append] at hmem
    exact hmem.resolve_left hno
  exact hsorted.2.2 y hy x hdrop

/-- Items are ranked by the weight of their images. -/
theorem topK_map {β : Type} {w : β → ℕ} (f : α → β) (l : List α) :
    topK w k (l.map f) = (topK (fun a => w (f a)) k l).map f := by
  have hsort : (l.insertionSort fun a b => w (f b) ≤ w (f a)).map f = (l.map f).insertionSort fun a b => w b ≤ w a :=
    List.map_insertionSort _ _ f l fun _ _ _ _ => Iff.rfl
  rw [topK, topK, ← hsort, List.map_take]

/-- In a sorted list the items that are heavier than an item stand before it. -/
theorem heavier_le_of_sorted {pre post : List α} {x : α} (h : (pre ++ x :: post).Pairwise fun a b => w b ≤ w a) :
    heavier w (w x) (pre ++ x :: post) ≤ pre.length := by
  have hpost : ∀ y ∈ x :: post, ¬w x < w y := by
    intro y hy
    rcases List.mem_cons.1 hy with rfl | hy
    · exact Nat.lt_irrefl _
    · have := (List.pairwise_cons.1 (List.pairwise_append.1 h).2.1).1 y hy
      omega
  have hzero : (x :: post).countP (fun a => w x < w a) = 0 :=
    List.countP_eq_zero.2 fun y hy => by simpa using hpost y hy
  rw [heavier, List.countP_append, hzero, Nat.add_zero]
  exact List.countP_le_length

/-- Fewer than `k` items are heavier than one of the `k` heaviest. -/
theorem heavier_lt_of_mem_topK {l : List α} {x : α} (h : x ∈ topK w k l) : heavier w (w x) l < k := by
  have htrans : IsTrans α fun a b => w b ≤ w a := ⟨fun _ _ _ h₁ h₂ => Nat.le_trans h₂ h₁⟩
  have htotal : Std.Total fun a b : α => w b ≤ w a := ⟨fun a b => Nat.le_total (w b) (w a)⟩
  have hsorted := List.pairwise_insertionSort (fun a b => w b ≤ w a) l
  have hperm := List.perm_insertionSort (fun a b => w b ≤ w a) l
  obtain ⟨pre, post, htake⟩ := List.append_of_mem h
  have hsplit : l.insertionSort (fun a b => w b ≤ w a) =
      pre ++ x :: (post ++ (l.insertionSort fun a b => w b ≤ w a).drop k) := by
    have := List.take_append_drop k (l.insertionSort fun a b => w b ≤ w a)
    rw [topK] at htake
    rw [htake] at this
    simpa using this.symm
  have hlen : pre.length < k := by
    have := congrArg List.length htake
    simp only [topK, List.length_take, List.length_append, List.length_cons] at this
    omega
  rw [hsplit] at hsorted hperm
  have hle := heavier_le_of_sorted hsorted
  rw [heavier, hperm.countP_eq] at hle
  exact Nat.lt_of_le_of_lt hle hlen

/-- The first item of a list is put before all items that are not heavier. -/
theorem mem_topK_head {l : List α} {x : α} (h : heavier w (w x) l < k) : x ∈ topK w k (x :: l) := by
  have hsort := List.insertionSort_cons_eq_take_drop (fun a b => w b ≤ w a) x l
  have hperm := List.perm_insertionSort (fun a b => w b ≤ w a) l
  -- what stands before `x` is heavier
  have hlen : ((l.insertionSort fun a b => w b ≤ w a).takeWhile fun b => ¬w b ≤ w x).length ≤ heavier w (w x) l := by
    rw [heavier, ← hperm.countP_eq]
    have hall : ∀ y ∈ (l.insertionSort fun a b => w b ≤ w a).takeWhile fun b => ¬w b ≤ w x, w x < w y := by
      intro y hy
      simpa using List.mem_takeWhile_imp hy
    have hcount := List.countP_eq_length.2 fun y hy => decide_eq_true (hall y hy)
    rw [← hcount]
    exact (List.takeWhile_sublist _).countP_le
  rw [topK, hsort]
  rw [List.take_append, List.mem_append]
  refine Or.inr ?_
  obtain ⟨m, hm⟩ : ∃ m, k - ((l.insertionSort fun a b => w b ≤ w a).takeWhile fun b => ¬w b ≤ w x).length = m + 1 :=
    ⟨k - ((l.insertionSort fun a b => w b ≤ w a).takeWhile fun b => ¬w b ≤ w x).length - 1, by omega⟩
  rw [hm, List.take_succ_cons]
  exact List.mem_cons_self

/-- **Ties go either way.** Some order of the list puts an item among the `k` heaviest exactly when fewer than `k`
items are heavier. -/
theorem exists_order_mem_topK_iff {l : List α} {x : α} (hx : x ∈ l) :
    (∃ ord : HashMap.IterOrder, x ∈ topK w k (ord.iter l)) ↔ heavier w (w x) l < k := by
  constructor
  · rintro ⟨ord, h⟩
    have := heavier_lt_of_mem_topK h
    rwa [heavier, (ord.perm l).countP_eq] at this
  · intro h
    obtain ⟨ord, l', hl⟩ := HashMap.IterOrder.exists_first hx
    refine ⟨ord, ?_⟩
    have hperm := ord.perm l
    rw [hl] at hperm ⊢
    apply mem_topK_head
    have hcount := hperm.countP_eq fun a => decide (w x < w a)
    rw [List.countP_cons_of_neg (by simp)] at hcount
    rwa [heavier, hcount]

end TopK
