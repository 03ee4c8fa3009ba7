import Mathlib.Data.List.Basic

/-!
# Bounded channels

A first-in first-out channel with room for `cap` items. Sending blocks while it is full; receiving blocks while it is
empty, and ends once it is empty and its sender is gone. Blocking is `none`.
-/

/-- A bounded channel. -/
structure Channel (α : Type) (cap : ℕ) where
  items : List α
  /-- the sender is gone -/
  closed : Bool
  bounded : items.length ≤ cap

namespace Channel

variable {α : Type} {cap : ℕ}

/-- A new channel. -/
def empty : Channel α cap := ⟨[], false, Nat.zero_le cap⟩

/-- Send an item; blocks while the channel is full. -/
def send (c : Channel α cap) (a : α) : Option (Channel α cap) :=
  if h : c.items.length < cap then
    some ⟨c.items ++ [a], c.closed, by rw [List.length_append, List.length_singleton]; exact h⟩
  else none

/-- What `recv` gives: an item, or the end of the channel. -/
inductive Received (α : Type) (cap : ℕ) where
  | item (a : α) (rest : Channel α cap)
  | ended

/-- Receive an item; blocks while the channel is empty and open. -/
def recv (c : Channel α cap) : Option (Received α cap) :=
  match h : c.items with
  | a :: rest => some (.item a ⟨rest, c.closed, Nat.le_of_succ_le (by simpa [h] using c.bounded)⟩)
  | [] => if c.closed then some .ended else none

/-- Drop the sender. -/
def close (c : Channel α cap) : Channel α cap := { c with closed := true }

@[simp] theorem empty_items : (empty : Channel α cap).items = [] := rfl

@[simp] theorem empty_closed : (empty : Channel α cap).closed = false := rfl

@[simp] theorem close_items (c : Channel α cap) : c.close.items = c.items := rfl

@[simp] theorem close_closed (c : Channel α cap) : c.close.closed = true := rfl

/-- Sending appends the item. -/
theorem send_spec {c c' : Channel α cap} {a : α} (h : c.send a = some c') :
    c'.items = c.items ++ [a] ∧ c'.closed = c.closed := by
  unfold send at h
  split at h
  · cases h
    exact ⟨rfl, rfl⟩
  · cases h

/-- A channel with room accepts an item. -/
theorem exists_send {c : Channel α cap} (h : c.items.length < cap) (a : α) : ∃ c', c.send a = some c' := by
  rw [send, dif_pos h]
  exact ⟨_, rfl⟩

/-- Receiving takes the oldest item. -/
theorem recv_item {c c' : Channel α cap} {a : α} (h : c.recv = some (.item a c')) :
    c.items = a :: c'.items ∧ c'.closed = c.closed := by
  unfold recv at h
  split at h
  · rename_i hc
    cases h
    exact ⟨hc, rfl⟩
  · split at h <;> cases h

/-- The channel ends when it is empty and closed. -/
theorem recv_ended {c : Channel α cap} (h : c.recv = some .ended) : c.items = [] ∧ c.closed = true := by
  unfold recv at h
  split at h
  · cases h
  · rename_i hc
    split at h
    · exact ⟨hc, by assumption⟩
    · cases h

/-- Receiving blocks only while the channel is empty and open. -/
theorem recv_blocked {c : Channel α cap} (h : c.recv = none) : c.items = [] ∧ c.closed = false := by
  unfold recv at h
  split at h
  · cases h
  · rename_i hc
    split at h
    · cases h
    · exact ⟨hc, by simpa using ‹¬c.closed = true›⟩

end Channel
