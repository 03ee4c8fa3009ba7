import Mathlib.Data.List.Basic
import Tenso.Ingest.Defs

/-!
# Account locks of a transaction

A message lists its static keys in four runs: signers that are writable, signers that are readonly, other writable keys,
other readonly ones. `resolveAccountLocks` cuts the list at the three places that the header gives, and appends the keys
that were loaded from lookup tables.

For every header the cuts are in range, and the locks are the stable partition, writable ones first, of the keys
flagged by their position (`resolveAccountLocks_positional`).
-/

namespace Tenso.Ingest

/-- The counts in the header of a message. -/
structure MessageHeader where
  numRequiredSignatures : UInt8
  numReadonlySignedAccounts : UInt8
  numReadonlyUnsignedAccounts : UInt8
  deriving DecidableEq

/-- `&xs[start..stop]`; `none` is the panic of a slice that is out of range. -/
def slice {α : Type} (xs : List α) (start stop : ℕ) : Option (List α) :=
  if start ≤ stop ∧ stop ≤ xs.length then some ((xs.take stop).drop start) else none

/-- The static keys, writable ones and readonly ones. -/
def splitStaticKeys (staticKeys : List String) (header : MessageHeader) : Option (List String × List String) := do
  let n := staticKeys.length
  let numSig := header.numRequiredSignatures.toNat
  let numReadonlySigned := header.numReadonlySignedAccounts.toNat
  let numReadonlyUnsigned := header.numReadonlyUnsignedAccounts.toNat
  let signedWritableCount := numSig - numReadonlySigned
  let nonSignerCount := n - numSig
  let unsignedWritableCount := nonSignerCount - numReadonlyUnsigned
  let signedWritable ← slice staticKeys 0 (min signedWritableCount n)
  let signedReadonly ← slice staticKeys (min signedWritableCount n) (min numSig n)
  let unsignedWritableStart := min numSig n
  let unsignedWritableEnd := min (numSig + unsignedWritableCount) n
  let unsignedWritable ← slice staticKeys unsignedWritableStart unsignedWritableEnd
  let unsignedReadonly ← slice staticKeys unsignedWritableEnd n
  return (signedWritable ++ unsignedWritable, signedReadonly ++ unsignedReadonly)

/-- The locks of a transaction: the static keys, and the keys loaded from lookup tables. -/
def resolveAccountLocks (staticKeys : List String) (header : MessageHeader)
    (loadedWritable loadedReadonly : List String) : Option (List AccountLock) := do
  let (staticWritable, staticReadonly) ← splitStaticKeys staticKeys header
  return (staticWritable ++ loadedWritable).map (fun a => { account := a, isWritable := true }) ++
    (staticReadonly ++ loadedReadonly).map (fun a => { account := a, isWritable := false })

/-! ## The positional rule -/

/-- Whether the key at position `i` of `n` static keys is writable. -/
def WritableAt (header : MessageHeader) (n i : ℕ) : Prop :=
  i < header.numRequiredSignatures.toNat - header.numReadonlySignedAccounts.toNat ∨
    (header.numRequiredSignatures.toNat ≤ i ∧ i + header.numReadonlyUnsignedAccounts.toNat < n)

instance (header : MessageHeader) (n i : ℕ) : Decidable (WritableAt header n i) :=
  inferInstanceAs (Decidable (_ ∨ _))

/-- The keys in the order of the message, each with its flag. -/
def positionalLocks (staticKeys : List String) (header : MessageHeader) (loadedWritable loadedReadonly : List String) :
    List AccountLock :=
  staticKeys.mapIdx (fun i a => { account := a, isWritable := decide (WritableAt header staticKeys.length i) }) ++
    loadedWritable.map (fun a => { account := a, isWritable := true }) ++
    loadedReadonly.map (fun a => { account := a, isWritable := false })

/-- The stable partition of locks, writable ones first. -/
def writableFirst (locks : List AccountLock) : List AccountLock :=
  locks.filter (·.isWritable) ++ locks.filter (!·.isWritable)

theorem writableFirst_perm (locks : List AccountLock) : (writableFirst locks).Perm locks :=
  List.filter_append_perm _ locks

/-- The four runs of a list that is cut at `a ≤ b ≤ c`. -/
theorem exists_runs {α : Type} (xs : List α) {a b c : ℕ} (hab : a ≤ b) (hbc : b ≤ c) (hc : c ≤ xs.length) :
    ∃ s₁ s₂ s₃ s₄, xs = s₁ ++ s₂ ++ s₃ ++ s₄ ∧ s₁.length = a ∧ s₁.length + s₂.length = b ∧
      s₁.length + s₂.length + s₃.length = c ∧
      slice xs 0 a = some s₁ ∧ slice xs a b = some s₂ ∧ slice xs b c = some s₃ ∧ slice xs c xs.length = some s₄ := by
  refine ⟨xs.take a, (xs.take b).drop a, (xs.take c).drop b, xs.drop c, ?_, ?_, ?_, ?_, ?_, ?_, ?_, ?_⟩
  · have h₁ : xs.take a ++ (xs.take b).drop a = xs.take b := by
      conv_rhs => rw [← List.take_append_drop a (xs.take b), List.take_take, min_eq_left hab]
    have h₂ : xs.take b ++ (xs.take c).drop b = xs.take c := by
      conv_rhs => rw [← List.take_append_drop b (xs.take c), List.take_take, min_eq_left hbc]
    rw [h₁, h₂, List.take_append_drop]
  · rw [List.length_take]
    omega
  · simp only [List.length_take, List.length_drop]
    omega
  · simp only [List.length_take, List.length_drop]
    omega
  · rw [slice, if_pos ⟨Nat.zero_le _, by omega⟩, List.drop_zero]
  · rw [slice, if_pos ⟨hab, by omega⟩]
  · rw [slice, if_pos ⟨hbc, hc⟩]
  · rw [slice, if_pos ⟨hc, le_rfl⟩, List.take_length]

/-- The keys of a run that starts at position `start`, flagged by position. -/
def flagRun (w : ℕ → Prop) [DecidablePred w] (start : ℕ) (run : List String) : List AccountLock :=
  run.mapIdx fun i a => { account := a, isWritable := decide (w (start + i)) }

section Flags

variable {w : ℕ → Prop} [DecidablePred w]

theorem flagRun_append (start : ℕ) (run run' : List String) :
    flagRun w start (run ++ run') = flagRun w start run ++ flagRun w (start + run.length) run' := by
  have hpos (i : ℕ) : start + (i + run.length) = start + run.length + i := by omega
  simp only [flagRun, List.mapIdx_append, hpos]

/-- A run along which the flag is the same. -/
theorem flagRun_const {start : ℕ} {run : List String} (b : Bool)
    (h : ∀ i, start ≤ i → i < start + run.length → decide (w i) = b) :
    flagRun w start run = run.map fun a => { account := a, isWritable := b } := by
  apply List.ext_getElem
  · simp [flagRun]
  · intro i h₁ h₂
    have hi : i < run.length := by simpa using h₂
    simp [flagRun, h (start + i) (by omega) (by omega)]

end Flags

/-- The static keys are split by position. -/
theorem splitStaticKeys_eq (staticKeys : List String) (header : MessageHeader) :
    ∃ writable readonly, splitStaticKeys staticKeys header = some (writable, readonly) ∧
      (flagRun (WritableAt header staticKeys.length) 0 staticKeys).filter (·.isWritable) =
        writable.map (fun a => { account := a, isWritable := true }) ∧
      (flagRun (WritableAt header staticKeys.length) 0 staticKeys).filter (!·.isWritable) =
        readonly.map (fun a => { account := a, isWritable := false }) := by
  obtain ⟨numSig, hsig⟩ : ∃ k, k = header.numRequiredSignatures.toNat := ⟨_, rfl⟩
  obtain ⟨roSigned, hros⟩ : ∃ k, k = header.numReadonlySignedAccounts.toNat := ⟨_, rfl⟩
  obtain ⟨roUnsigned, hrou⟩ : ∃ k, k = header.numReadonlyUnsignedAccounts.toNat := ⟨_, rfl⟩
  obtain ⟨n, hn⟩ : ∃ k, k = staticKeys.length := ⟨_, rfl⟩
  have hcut₁ : min (numSig - roSigned) n ≤ min numSig n := by omega
  have hcut₂ : min numSig n ≤ min (numSig + (n - numSig - roUnsigned)) n := by omega
  have hcut₃ : min (numSig + (n - numSig - roUnsigned)) n ≤ staticKeys.length := by omega
  obtain ⟨s₁, s₂, s₃, s₄, hkeys, hl₁, hl₂, hl₃, hs₁, hs₂, hs₃, hs₄⟩ := exists_runs staticKeys hcut₁ hcut₂ hcut₃
  have hlen : s₁.length + s₂.length + s₃.length + s₄.length = n := by
    rw [hn, hkeys]
    simp only [List.length_append]
  have hw (i : ℕ) : WritableAt header n i ↔ i < numSig - roSigned ∨ (numSig ≤ i ∧ i + roUnsigned < n) := by
    rw [WritableAt, ← hsig, ← hros, ← hrou]
  -- the flag is the same along each of the four runs
  have h₁ : flagRun (WritableAt header n) 0 s₁ = s₁.map fun a => { account := a, isWritable := true } :=
    flagRun_const true fun i _ hi => decide_eq_true (by rw [hw]; omega)
  have h₂ : flagRun (WritableAt header n) (0 + s₁.length) s₂ = s₂.map fun a => { account := a, isWritable := false } :=
    flagRun_const false fun i hlo hi => decide_eq_false (by rw [hw]; omega)
  have h₃ : flagRun (WritableAt header n) (0 + (s₁ ++ s₂).length) s₃ =
      s₃.map fun a => { account := a, isWritable := true } := by
    rw [List.length_append]
    exact flagRun_const true fun i hlo hi => decide_eq_true (by rw [hw]; omega)
  have h₄ : flagRun (WritableAt header n) (0 + (s₁ ++ s₂ ++ s₃).length) s₄ =
      s₄.map fun a => { account := a, isWritable := false } := by
    rw [List.length_append, List.length_append]
    exact flagRun_const false fun i hlo hi => decide_eq_false (by rw [hw]; omega)
  have hruns : flagRun (WritableAt header n) 0 staticKeys =
      s₁.map (fun a => { account := a, isWritable := true }) ++
      s₂.map (fun a => { account := a, isWritable := false }) ++
      s₃.map (fun a => { account := a, isWritable := true }) ++
      s₄.map (fun a => { account := a, isWritable := false }) := by
    rw [hkeys, flagRun_append, flagRun_append, flagRun_append, h₁, h₂, h₃, h₄]
  refine ⟨s₁ ++ s₃, s₂ ++ s₄, ?_, ?_, ?_⟩
  · rw [← hn] at hs₄
    simp only [splitStaticKeys, ← hsig, ← hros, ← hrou, ← hn, hs₁, hs₂, hs₃, hs₄]
    rfl
  · rw [← hn, hruns]
    simp [List.filter_append, List.filter_map, Function.comp_def]
  · rw [← hn, hruns]
    simp [List.filter_append, List.filter_map, Function.comp_def]

/-- No slice is out of range, whatever the header says. -/
theorem resolveAccountLocks_eq (staticKeys : List String) (header : MessageHeader)
    (loadedWritable loadedReadonly : List String) :
    resolveAccountLocks staticKeys header loadedWritable loadedReadonly =
      some (writableFirst (positionalLocks staticKeys header loadedWritable loadedReadonly)) := by
  obtain ⟨writable, readonly, hsplit, hwritable, hreadonly⟩ := splitStaticKeys_eq staticKeys header
  have hflags : staticKeys.mapIdx (fun i a =>
      ({ account := a, isWritable := decide (WritableAt header staticKeys.length i) } : AccountLock)) =
        flagRun (WritableAt header staticKeys.length) 0 staticKeys := by
    simp only [flagRun, Nat.zero_add]
  simp only [resolveAccountLocks, hsplit, writableFirst, positionalLocks, hflags, List.filter_append, hwritable,
    hreadonly]
  simp [List.filter_map, Function.comp_def]

/-- **The locks follow the positional rule.** For every header, no slice is out of range, and the locks are the stable
partition, writable ones first, of the keys flagged by position; every occurrence of a key has one lock. -/
theorem resolveAccountLocks_positional (staticKeys : List String) (header : MessageHeader)
    (loadedWritable loadedReadonly : List String) :
    ∃ locks, resolveAccountLocks staticKeys header loadedWritable loadedReadonly = some locks ∧
      locks = writableFirst (positionalLocks staticKeys header loadedWritable loadedReadonly) ∧
      (locks.map (·.account)).Perm (staticKeys ++ loadedWritable ++ loadedReadonly) := by
  have haccounts : (staticKeys.mapIdx fun i a =>
      ({ account := a, isWritable := decide (WritableAt header staticKeys.length i) } : AccountLock)).map (·.account) =
        staticKeys :=
    List.ext_getElem (by simp) fun i _ _ => by simp
  refine ⟨_, resolveAccountLocks_eq _ _ _ _, rfl, ((writableFirst_perm _).map _).trans (.of_eq ?_)⟩
  simp [positionalLocks, haccounts, Function.comp_def]

/-- More readonly signers than signers, and more signers than keys: every static key is readonly. -/
example : resolveAccountLocks ["a", "b"] ⟨3, 5, 1⟩ ["c"] [] =
    some [⟨"c", true⟩, ⟨"a", false⟩, ⟨"b", false⟩] := by decide

end Tenso.Ingest
