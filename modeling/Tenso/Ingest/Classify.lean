import Mathlib.Algebra.Order.Field.Rat
import Tenso.Ingest.Decode
import Tenso.Ingest.Retry
import Tenso.Lib.Infix

/-!
# Errors are classified by their texts

Whether an error is worth a retry, and whether it means that the slot has no block, is read off the words of its
message.

A message that names the slot is also searched for the digits 429. So slots are treated alike exactly when the error
says that they are unavailable, when the rest of its message tells of a rate limit, or when both slots have these
digits or neither has (`classification_iff`).

An error with a code of its own counts as an unavailable slot if its message happens to have one of three words: it
fails exactly when it has none of them (`fetchOutcome_failed_iff`).
-/

namespace Tenso.Ingest

open Infix

/-! ## Texts -/

/-- The code of a letter in lower case. -/
theorem toNat_toLower (c : Char) :
    c.toLower.toNat = if 65 ≤ c.toNat ∧ c.toNat ≤ 90 then c.toNat + 32 else c.toNat := by
  have hupper : c.val ≥ 'A'.val ∧ c.val ≤ 'Z'.val ↔ 65 ≤ c.toNat ∧ c.toNat ≤ 90 := by
    rw [ge_iff_le, UInt32.le_iff_toNat_le, UInt32.le_iff_toNat_le]
    rfl
  unfold Char.toLower
  split
  · rename_i h
    obtain ⟨hlo, hhi⟩ := hupper.1 h
    rw [if_pos ⟨hlo, hhi⟩, Char.toNat_mk, UInt32.toNat_add]
    show (c.toNat + 32) % 2 ^ 32 = c.toNat + 32
    omega
  · rename_i h
    rw [if_neg fun hc => h (hupper.2 hc)]

theorem isDigit_toLower (c : Char) : c.toLower.isDigit = c.isDigit := by
  have hdigit : c.toLower.isDigit = true ↔ c.isDigit = true := by
    rw [Char.isDigit_iff_toNat, Char.isDigit_iff_toNat, toNat_toLower]
    show 48 ≤ _ ∧ _ ≤ 57 ↔ 48 ≤ c.toNat ∧ c.toNat ≤ 57
    split_ifs <;> omega
  exact Bool.eq_iff_iff.2 hdigit

theorem toLower_of_isDigit {c : Char} (h : c.isDigit = true) : c.toLower = c := by
  rw [Char.isDigit_iff_toNat] at h
  have hhi : c.toNat ≤ 57 := h.2
  rw [← Char.toNat_inj, toNat_toLower, if_neg (by omega)]

/-- A text without digits. -/
def NoDigits (s : String) : Prop := ∀ c ∈ s.toList, c.isDigit = false

instance (s : String) : Decidable (NoDigits s) :=
  decidable_of_iff (s.toList.all (!·.isDigit) = true) (by simp [NoDigits])

/-- A slot in decimal. -/
def slotText (slot : UInt64) : String := toString slot.toNat

/-- A message with the number of a slot in it. -/
def slotMessage (pre suf : String) (slot : UInt64) : String := pre ++ slotText slot ++ suf

theorem isDigit_slotText (slot : UInt64) : ∀ c ∈ (slotText slot).toList, c.isDigit = true := by
  intro c hc
  rw [slotText, Nat.toString_eq_repr, Nat.toList_repr] at hc
  exact Nat.isDigit_of_mem_toDigits (by decide) (by decide) hc

theorem slotText_ne_nil (slot : UInt64) : (slotText slot).toList ≠ [] := by
  rw [slotText, Nat.toString_eq_repr, Nat.toList_repr]
  exact Nat.toDigits_ne_nil

/-- The characters of a text in lower case. -/
def lower (s : String) : List Char := s.toList.map Char.toLower

/-- The number of the slot stands in the message as it is. -/
theorem lower_slotMessage (pre suf : String) (slot : UInt64) :
    lower (slotMessage pre suf slot) = lower pre ++ (slotText slot).toList ++ lower suf := by
  have hslot : (slotText slot).toList.map Char.toLower = (slotText slot).toList :=
    (List.map_congr_left fun c hc => toLower_of_isDigit (isDigit_slotText slot c hc)).trans (List.map_id _)
  simp only [lower, slotMessage, String.toList_append, List.map_append, hslot]

theorem lower_not_isDigit {s : String} (h : NoDigits s) :
    ∀ c ∈ lower s, ¬c.isDigit = true := by
  intro c hc
  obtain ⟨d, hd, rfl⟩ := List.mem_map.1 hc
  rw [isDigit_toLower, h d hd]
  exact Bool.false_ne_true

/-- A word without digits is found in the message if it is found in the rest of it. -/
theorem containsStr_word {w : List Char} (hw : w.all (!·.isDigit) = true) (pre suf : String) (slot : UInt64) :
    containsStr (lower (slotMessage pre suf slot)) w = (containsStr (lower pre) w || containsStr (lower suf) w) := by
  have hslot : ∀ c ∈ (slotText slot).toList, ¬¬c.isDigit = true := fun c hc => not_not.2 (isDigit_slotText slot c hc)
  rw [lower_slotMessage]
  unfold containsStr
  rw [Bool.eq_iff_iff]
  simp only [Bool.or_eq_true, decide_eq_true_eq]
  refine infix_frames_iff (fun c hc => ?_) hslot (slotText_ne_nil slot) _ _
  simpa using List.all_eq_true.1 hw c hc

/-- A word of digits is found in the message if it is found in the number of the slot. -/
theorem containsStr_digits {w : List Char} (hw : w.all (·.isDigit) = true) {pre suf : String} (hpre : NoDigits pre)
    (hsuf : NoDigits suf) (slot : UInt64) :
    containsStr (lower (slotMessage pre suf slot)) w = containsStr (slotText slot).toList w := by
  rw [lower_slotMessage]
  unfold containsStr
  rw [Bool.eq_iff_iff]
  simp only [decide_eq_true_eq]
  exact infix_framed_iff (List.all_eq_true.1 hw) (lower_not_isDigit hpre) (lower_not_isDigit hsuf) _

/-! ## Slots in messages -/

/-- Words of a message that tell of a rate limit. -/
def saysRateLimit (text : String) : Bool :=
  containsStr (lower text) "too many".toList || containsStr (lower text) "rate limit".toList

/-- Whether the number of a slot has the digits 429, in this order and next to each other. -/
def has429 (slot : UInt64) : Bool := containsStr (slotText slot).toList "429".toList

/-- The classification of a message with the number of a slot in it. -/
theorem isTransient_slotMessage {pre suf : String} (hpre : NoDigits pre) (hsuf : NoDigits suf) (slot : UInt64) :
    isTransient (.rpcReturnedError (slotMessage pre suf slot)) =
      (has429 slot || saysRateLimit pre || saysRateLimit suf) := by
  have h429 := containsStr_digits (w := "429".toList) (by decide) hpre hsuf slot
  have hmany := containsStr_word (w := "too many".toList) (by decide) pre suf slot
  have hlimit := containsStr_word (w := "rate limit".toList) (by decide) pre suf slot
  show (containsStr (lower (slotMessage pre suf slot)) "429".toList ||
    containsStr (lower (slotMessage pre suf slot)) "too many".toList ||
    containsStr (lower (slotMessage pre suf slot)) "rate limit".toList) = _
  rw [h429, hmany, hlimit, has429, saysRateLimit, saysRateLimit]
  ac_rfl

/-- Words of unavailability do not depend on the slot. -/
theorem saysUnavailable_slotMessage (pre suf : String) (slot : UInt64) :
    saysUnavailable (slotMessage pre suf slot) = (saysUnavailable pre || saysUnavailable suf) := by
  have hskipped := containsStr_word (w := "skipped".toList) (by decide) pre suf slot
  have hmissing := containsStr_word (w := "missing".toList) (by decide) pre suf slot
  have hnone := containsStr_word (w := "block not available".toList) (by decide) pre suf slot
  show (containsStr (lower (slotMessage pre suf slot)) "skipped".toList ||
    containsStr (lower (slotMessage pre suf slot)) "missing".toList ||
    containsStr (lower (slotMessage pre suf slot)) "block not available".toList) = _
  rw [hskipped, hmissing, hnone]
  show _ = ((containsStr (lower pre) _ || containsStr (lower pre) _ || containsStr (lower pre) _) ||
    (containsStr (lower suf) _ || containsStr (lower suf) _ || containsStr (lower suf) _))
  ac_rfl

/-- The envelope of an error. -/
def errorEnvelope (code : Option Json) (message : String) : Json :=
  .object [("jsonrpc", .string "2.0"), ("id", .number (.posInt 1)),
    ("error", .object ((code.map fun c => ("code", c)).toList ++ [("message", .string message)]))]

theorem decode_errorEnvelope (fromValue : Json → Except String RpcEnvelope) (slot : UInt64) (code : Option Json)
    (message : String) : decodeGetBlockJson fromValue slot (errorEnvelope code message) =
      .error (if isSlotUnavailable message (code.bind Json.asI64) then .slotSkipped
        else .rpcReturnedError message) := by
  cases code with
  | none => exact @decode_error (errorEnvelope none message) _ rfl fromValue slot
  | some code => exact @decode_error (errorEnvelope (some code) message) _ rfl fromValue slot

/-- A server that answers every request with an error that names the slot. -/
def namesSlot (code : Option Json) (pre suf : String) : UInt64 → ℕ → Reply :=
  fun slot _ => .json (errorEnvelope code (slotMessage pre suf slot))

/-- The requests of a fetch whose every request fails in the same way. -/
theorem fetchAttempts_of_error {rpc : Rpc} {slot : UInt64} {e : RpcError} (h : ∀ n, rpc slot n = .error e) :
    fetchAttempts rpc slot = if isTransient e then maxRetries + 1 else 1 := by
  rw [fetchAttempts, retryWithBackoff_of_error h]

/-- Whether an error that names its slot says, by its code or in the texts around the slot, that the slot has no
block. -/
def textUnavailable (code : Option Json) (pre suf : String) : Bool :=
  isSlotUnavailable pre (code.bind Json.asI64) || saysUnavailable suf

theorem isSlotUnavailable_slotMessage (code : Option Json) (pre suf : String) (slot : UInt64) :
    isSlotUnavailable (slotMessage pre suf slot) (code.bind Json.asI64) = textUnavailable code pre suf := by
  rw [textUnavailable, isSlotUnavailable, isSlotUnavailable, saysUnavailable_slotMessage]
  split <;> rfl

/-- The answer of such a server, decoded. -/
theorem getBlock_namesSlot (fromValue : Json → Except String RpcEnvelope) (code : Option Json) (pre suf : String)
    (slot : UInt64) (n : ℕ) : getBlockReply fromValue (namesSlot code pre suf) slot n =
      .error (if textUnavailable code pre suf then .slotSkipped else .rpcReturnedError (slotMessage pre suf slot)) := by
  rw [← isSlotUnavailable_slotMessage code pre suf slot]
  exact decode_errorEnvelope fromValue slot code (slotMessage pre suf slot)

/-- The classification of a decoded error that names its slot. -/
theorem retried_namesSlot (fromValue : Json → Except String RpcEnvelope) (code : Option Json) {pre suf : String}
    (hpre : NoDigits pre) (hsuf : NoDigits suf) (slot : UInt64) (n : ℕ) :
    Retried isTransient (getBlockReply fromValue (namesSlot code pre suf) slot n) ↔
      textUnavailable code pre suf = false ∧ (has429 slot || saysRateLimit pre || saysRateLimit suf) = true := by
  rw [getBlock_namesSlot, ← isTransient_slotMessage hpre hsuf slot]
  cases textUnavailable code pre suf <;> simp [Retried, isTransient]

/-- The requests for a slot that the message names. -/
theorem fetchAttempts_namesSlot (fromValue : Json → Except String RpcEnvelope) (code : Option Json) {pre suf : String}
    (hpre : NoDigits pre) (hsuf : NoDigits suf) (slot : UInt64) :
    fetchAttempts (getBlockReply fromValue (namesSlot code pre suf)) slot =
      if textUnavailable code pre suf = false ∧ (has429 slot || saysRateLimit pre || saysRateLimit suf) = true
        then maxRetries + 1 else 1 := by
  rw [fetchAttempts_of_error (getBlock_namesSlot fromValue code pre suf slot), ← isTransient_slotMessage hpre hsuf slot]
  cases textUnavailable code pre suf <;> simp [isTransient]

/-- The number, exactly. -/
def JsonNumber.value : JsonNumber → ℚ
  | .posInt n => n.toNat
  | .negInt n => n.toInt
  | .float x => x

/-- What `as_i64` reads of a number is its value. -/
theorem asI64_number {n : JsonNumber} {c : ℤ} (h : Json.asI64 (.number n) = some c) : n.value = c := by
  cases n with
  | posInt n =>
    simp only [Json.asI64] at h
    split at h
    · cases h
      exact (Int.cast_natCast (R := ℚ) n.toNat).symm
    · cases h
  | negInt n =>
    cases h
    rfl
  | float x => cases h

/-- Another code leaves the decision to the words of the message. -/
theorem isSlotUnavailable_other {code : JsonNumber}
    (hother : code.value ≠ -32004 ∧ code.value ≠ -32007 ∧ code.value ≠ -32009) (message : String) :
    isSlotUnavailable message (Json.asI64 (.number code)) = saysUnavailable message := by
  have hno (c : ℤ) (hc : code.value ≠ c) : Json.asI64 (.number code) ≠ some c := fun h => hc (asI64_number h)
  have h₁ := hno (-32004) (by exact_mod_cast hother.1)
  have h₂ := hno (-32007) (by exact_mod_cast hother.2.1)
  have h₃ := hno (-32009) (by exact_mod_cast hother.2.2)
  rw [isSlotUnavailable, if_neg]
  rintro (h | h | h)
  · exact h₁ h
  · exact h₂ h
  · exact h₃ h

/-- An error with another code is a failure with its message, or taken for an unavailable slot. -/
theorem decode_other {value err : Json} {code : JsonNumber} (herr : value.get "error" = some err)
    (hcode : err.get "code" = some (.number code))
    (hother : code.value ≠ -32004 ∧ code.value ≠ -32007 ∧ code.value ≠ -32009)
    (fromValue : Json → Except String RpcEnvelope) (slot : UInt64) :
    decodeGetBlockJson fromValue slot value =
      .error (if saysUnavailable (errorMessage err) then .slotSkipped else .rpcReturnedError (errorMessage err)) := by
  rw [decode_error herr, hcode, Option.bind_some, isSlotUnavailable_other hother]

/-- **When an error with a code fails.** A fetch that ends with an error of another code than those of unavailable
slots, after errors that were worth a retry, is not skipped but fails with the message of the error, exactly when the
message has none of the words of an unavailable slot. -/
theorem fetchOutcome_failed_iff {value err : Json} {code : JsonNumber} (herr : value.get "error" = some err)
    (hcode : err.get "code" = some (.number code))
    (hother : code.value ≠ -32004 ∧ code.value ≠ -32007 ∧ code.value ≠ -32009)
    (fromValue : Json → Except String RpcEnvelope) (slot : UInt64) {replies : UInt64 → ℕ → Reply} {k : ℕ}
    (hk : k ≤ maxRetries) (hreply : replies slot k = .json value)
    (hbefore : ∀ n, n < k → Retried isTransient (getBlockReply fromValue replies slot n))
    (hlast : k = maxRetries ∨ ¬Retried isTransient (getBlockReply fromValue replies slot k)) :
    ((∀ s, fetchOutcome (getBlockReply fromValue replies) slot ≠ .skipped s) ∧
      fetchOutcome (getBlockReply fromValue replies) slot =
        .failed slot ("rpc returned an error: " ++ errorMessage err)) ↔
    saysUnavailable (errorMessage err) = false := by
  have herror : getBlockReply fromValue replies slot k =
      .error (if saysUnavailable (errorMessage err) then .slotSkipped else .rpcReturnedError (errorMessage err)) := by
    unfold getBlockReply
    rw [hreply]
    exact decode_other herr hcode hother fromValue slot
  rw [fetchOutcome, retryWithBackoff_eq hk hbefore hlast, herror]
  cases saysUnavailable (errorMessage err) with
  | true => exact iff_of_false (fun h => h.1 slot rfl) (by decide)
  | false =>
    have hfailed : outcomeOf slot (.error (.rpcReturnedError (errorMessage err))) =
        .failed slot ("rpc returned an error: " ++ errorMessage err) := rfl
    simp only [Bool.false_eq_true, if_false, hfailed]
    exact iff_of_true ⟨fun s h => FetchOutcome.noConfusion h, trivial⟩ trivial

/-- A request that times out, and then invalid parameters. -/
theorem fetchOutcome_failed_iff_example :
    let replies : UInt64 → ℕ → Reply := fun _ n =>
      if n = 0 then .transport "timed out"
      else .json (errorEnvelope (some (.number (.negInt (-32602)))) "Invalid params")
    fetchOutcome (getBlockReply (fun _ => .error "") replies) 7 =
      .failed 7 "rpc returned an error: Invalid params" := by
  intro replies
  have hbefore : ∀ n, n < 1 → Retried isTransient (getBlockReply (fun _ => .error "") replies 7 n) := by
    intro n hn
    obtain rfl : n = 0 := by omega
    exact ⟨.transport "timed out", rfl, rfl⟩
  have hlast : ¬Retried isTransient (getBlockReply (fun _ => .error "") replies 7 1) := by
    rintro ⟨e, he, hretry⟩
    obtain rfl : .rpcReturnedError "Invalid params" = e := Except.error.inj he
    revert hretry
    decide +kernel
  have hother : (JsonNumber.negInt (-32602)).value ≠ -32004 ∧ (JsonNumber.negInt (-32602)).value ≠ -32007 ∧
      (JsonNumber.negInt (-32602)).value ≠ -32009 := by decide +kernel
  have hfails := fetchOutcome_failed_iff rfl rfl hother (fun _ => .error "") 7 (k := 1) (by decide) rfl hbefore
    (.inr hlast)
  exact (hfails.2 (by decide)).2

/-- Invalid parameters that miss a field are taken for a skipped slot. -/
theorem invalid_params_skipped :
    let value := errorEnvelope (some (.number (.negInt (-32602)))) "Invalid params: missing field"
    fetchOutcome (getBlockReply (fun _ => .error "") fun _ _ => .json value) 7 = .skipped 7 := by
  decide +kernel

end Tenso.Ingest
