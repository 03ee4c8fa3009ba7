import Mathlib.Data.List.Basic

/-!
# Prefix-free codes

A code is prefix-free if its words can be split off the front of a text in one way only (`PrefixFree`), as it is the
case for a code with a decoder (`of_decoder`). Words up to an end mark that starts none of them can be read back
(`flatMap_inj`), and so can words with a separator between them (`intercalate_inj`).
-/

namespace PrefixCode

variable {α β : Type}

/-- Prefix-free: a text starts with at most one word. -/
def PrefixFree (f : α → List β) : Prop := ∀ a b xs ys, f a ++ xs = f b ++ ys → a = b ∧ xs = ys

/-- No word starts with `t`, and none is empty. -/
def StartsApart (f : α → List β) (t : β) : Prop := ∀ a, ∃ b bs, f a = b :: bs ∧ b ≠ t

variable {f : α → List β}

/-- A code with a decoder that returns the rest of the text. -/
theorem PrefixFree.of_decoder {decode : List β → Option (α × List β)}
    (h : ∀ a xs, decode (f a ++ xs) = some (a, xs)) : PrefixFree f := by
  intro a b xs ys he
  have hsame : some (a, xs) = some (b, ys) := by rw [← h a xs, ← h b ys, he]
  exact Prod.mk.inj (Option.some.inj hsame)

theorem StartsApart.ne {t : β} (h : StartsApart f t) {a : α} {xs ys : List β} : f a ++ xs ≠ t :: ys := by
  obtain ⟨b, bs, hb, hne⟩ := h a
  rw [hb]
  exact fun he => hne (List.cons.inj he).1

/-- Words up to an end mark that starts no word. -/
theorem flatMap_inj (hf : PrefixFree f) {t : β} (ht : StartsApart f t) : ∀ {as bs : List α} {xs ys : List β},
    as.flatMap f ++ t :: xs = bs.flatMap f ++ t :: ys → as = bs ∧ xs = ys
  | [], [], _, _, h => ⟨rfl, (List.cons.inj h).2⟩
  | [], b :: bs, _, _, h => by
    rw [List.flatMap_cons, List.append_assoc] at h
    exact absurd h.symm ht.ne
  | a :: as, [], _, _, h => by
    rw [List.flatMap_cons, List.append_assoc] at h
    exact absurd h ht.ne
  | a :: as, b :: bs, _, _, h => by
    rw [List.flatMap_cons, List.flatMap_cons, List.append_assoc, List.append_assoc] at h
    obtain ⟨rfl, htail⟩ := hf _ _ _ _ h
    obtain ⟨rfl, hrest⟩ := flatMap_inj hf ht htail
    exact ⟨rfl, hrest⟩

/-- Words between two marks, the second of which starts no word, are a prefix-free code themselves. -/
theorem PrefixFree.quoted (hf : PrefixFree f) {s t : β} (ht : StartsApart f t) :
    PrefixFree fun as : List α => s :: as.flatMap f ++ [t] := by
  intro as bs xs ys h
  simp only [List.cons_append, List.append_assoc, List.nil_append, List.cons.injEq, true_and] at h
  exact flatMap_inj hf ht h

/-- A mark before each word. -/
theorem PrefixFree.marked (hf : PrefixFree f) (s : β) : PrefixFree fun a => s :: f a := by
  intro a b xs ys h
  exact hf a b xs ys (List.cons.inj h).2

theorem PrefixFree.comp {γ : Type} (hf : PrefixFree f) {g : γ → α} (hg : Function.Injective g) :
    PrefixFree fun c => f (g c) := by
  intro a b xs ys h
  obtain ⟨hab, hrest⟩ := hf _ _ _ _ h
  exact ⟨hg hab, hrest⟩

/-- The separator stands before each word but the first. -/
theorem intercalate_cons (s : β) (a : α) (as : List α) :
    [s].intercalate ((a :: as).map f) = f a ++ as.flatMap fun b => s :: f b := by
  induction as generalizing a with
  | nil => simp [List.intercalate]
  | cons b as ih =>
    rw [List.map_cons, List.map_cons, List.intercalate_cons_cons, ← List.map_cons, ih]
    simp

/-- **Words with a separator between them**, up to an end mark. -/
theorem intercalate_inj (hf : PrefixFree f) {s t : β} (hs : s ≠ t) (ht : StartsApart f t) {as bs : List α}
    {xs ys : List β} (h : [s].intercalate (as.map f) ++ t :: xs = [s].intercalate (bs.map f) ++ t :: ys) :
    as = bs ∧ xs = ys := by
  have hmark : StartsApart (fun b => s :: f b) t := fun b => ⟨s, f b, rfl, hs⟩
  cases as with
  | nil =>
    cases bs with
    | nil => exact ⟨rfl, (List.cons.inj h).2⟩
    | cons b bs =>
      rw [intercalate_cons, List.append_assoc] at h
      exact absurd h.symm ht.ne
  | cons a as =>
    cases bs with
    | nil =>
      rw [intercalate_cons, List.append_assoc] at h
      exact absurd h ht.ne
    | cons b bs =>
      rw [intercalate_cons, intercalate_cons, List.append_assoc, List.append_assoc] at h
      obtain ⟨rfl, htail⟩ := hf _ _ _ _ h
      obtain ⟨rfl, hrest⟩ := flatMap_inj (hf.marked s) hmark htail
      exact ⟨rfl, hrest⟩

end PrefixCode
