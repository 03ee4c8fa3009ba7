import Mathlib.Algebra.GroupWithZero.Nat
import Tenso.Ingest.Defs

/-!
# Net changes by mint

`buildTokenDeltas` matches the accounts of a transaction by index and takes the mint of an account from the list after
the transaction. The net that it computes for a mint differs from the change of the mint's total by the balances of
the accounts that were closed and created again for another mint in between (`codeNet_eq`): these are charged to the
new mint.

So the token deltas are the net changes by mint exactly when, for every mint, what such accounts took away from it is
what others brought to it (`netChange_iff`).
-/

namespace Tenso.Ingest

open Netting

variable {pre post : List RawTokenBalance}

/-! ## The change of one account -/

theorem find?_accountIndex {l : List RawTokenBalance} (hl : (l.map (·.accountIndex)).Nodup) {b : RawTokenBalance}
    (hb : b ∈ l) : l.find? (·.accountIndex = b.accountIndex) = some b := by
  cases hf : l.find? (·.accountIndex = b.accountIndex) with
  | none => exact absurd (List.find?_eq_none.1 hf b hb) (by simp)
  | some c =>
    have hc : c.accountIndex = b.accountIndex := by simpa using List.find?_some hf
    rw [List.inj_on_of_nodup_map hl (List.mem_of_find?_eq_some hf) hb hc]

/-- What an entry after the transaction adds to the total of `k`. -/
def share (pre : List RawTokenBalance) (k : String) (q : RawTokenBalance) : ℤ :=
  if q.mint = k then (q.amount.toNat : ℤ) - (amountAt pre q.accountIndex).toNat else 0

/-- The deltas of the entries after the transaction add up to their shares. -/
theorem total_postDelta (pre : List RawTokenBalance) (k : String) (l : List RawTokenBalance) :
    total ((l.filterMap (postDelta pre)).map (·.netItem)) k = (l.map (share pre k)).sum := by
  induction l with
  | nil => rfl
  | cons q l ih =>
    rw [List.map_cons, List.sum_cons, ← ih]
    by_cases heq : amountAt pre q.accountIndex = q.amount
    · have hq : postDelta pre q = none := by simp [postDelta, heq]
      rw [List.filterMap_cons_none hq]
      simp [share, heq]
    · have hq : postDelta pre q =
          some ⟨q.mint, amountAt pre q.accountIndex, q.amount, q.uiTokenAmount.decimals⟩ := by simp [postDelta, heq]
      rw [List.filterMap_cons_some hq, List.map_cons, total_cons]
      rfl

/-- The mint of the account of `p` after the transaction. -/
def mintAfter (post : List RawTokenBalance) (p : RawTokenBalance) : Option String :=
  (post.find? (·.accountIndex = p.accountIndex)).map (·.mint)

/-- The deltas of the accounts that were closed add up to what they held. -/
theorem total_closedDelta (post : List RawTokenBalance) (k : String) (l : List RawTokenBalance) :
    total ((l.filterMap (closedDelta post)).map (·.netItem)) k =
      -(l.map fun p => if mintAfter post p = none ∧ p.mint = k then (p.amount.toNat : ℤ) else 0).sum := by
  induction l with
  | nil => rfl
  | cons p l ih =>
    rw [List.map_cons, List.sum_cons, neg_add, ← ih]
    have hafter : mintAfter post p = none ↔ post.any (·.accountIndex = p.accountIndex) = false := by
      simp [mintAfter]
    by_cases hany : post.any (·.accountIndex = p.accountIndex) = true
    · have hp : closedDelta post p = none := by simp [closedDelta, hany]
      rw [List.filterMap_cons_none hp, if_neg (by simp [hafter, hany])]
      simp
    · rw [Bool.not_eq_true] at hany
      by_cases h0 : p.amount = 0
      · have hp : closedDelta post p = none := by simp [closedDelta, h0]
        rw [List.filterMap_cons_none hp]
        simp [h0]
      · have hp : closedDelta post p = some ⟨p.mint, p.amount, 0, p.uiTokenAmount.decimals⟩ := by
          simp [closedDelta, hany, h0]
        rw [List.filterMap_cons_some hp, List.map_cons, total_cons]
        by_cases hk : p.mint = k <;> simp [hk, hafter.2 hany, TokenBalanceChange.netItem, TokenBalanceChange.delta]

/-- The amount at an index, as a sum over the list. -/
theorem amountAt_eq_sum {l : List RawTokenBalance} (hl : (l.map (·.accountIndex)).Nodup) (i : UInt32) :
    ((amountAt l i).toNat : ℤ) = (l.map fun p => if p.accountIndex = i then (p.amount.toNat : ℤ) else 0).sum := by
  induction l with
  | nil => rfl
  | cons p l ih =>
    rw [List.map_cons, List.nodup_cons] at hl
    rw [List.map_cons, List.sum_cons, ← ih hl.2]
    by_cases hp : p.accountIndex = i
    · have hrest : l.find? (·.accountIndex = i) = none := by
        refine List.find?_eq_none.2 fun b hb he => hl.1 ?_
        rw [hp, ← of_decide_eq_true he]
        exact List.mem_map_of_mem hb
      simp [amountAt, hp, hrest]
    · simp [amountAt, hp]

theorem mintAfter_cons (q : RawTokenBalance) (post : List RawTokenBalance) (p : RawTokenBalance) :
    mintAfter (q :: post) p = if q.accountIndex = p.accountIndex then some q.mint else mintAfter post p := by
  by_cases h : q.accountIndex = p.accountIndex <;> simp [mintAfter, h]

/-- The balances before that the entries of a mint are matched with are those of the accounts that hold it after. -/
theorem sum_amountAt (hpre : (pre.map (·.accountIndex)).Nodup)
    (hpost : (post.map (·.accountIndex)).Nodup) (k : String) :
    (post.map fun q => if q.mint = k then ((amountAt pre q.accountIndex).toNat : ℤ) else 0).sum =
      (pre.map fun p => if mintAfter post p = some k then (p.amount.toNat : ℤ) else 0).sum := by
  induction post with
  | nil =>
    refine (List.sum_eq_zero fun x hx => ?_).symm
    obtain ⟨p, _, rfl⟩ := List.mem_map.1 hx
    exact if_neg nofun
  | cons q post ih =>
    rw [List.map_cons, List.nodup_cons] at hpost
    -- the index of `q` is not in the rest
    have hpoint (p : RawTokenBalance) : (if mintAfter (q :: post) p = some k then (p.amount.toNat : ℤ) else 0) =
        (if q.mint = k then if p.accountIndex = q.accountIndex then (p.amount.toNat : ℤ) else 0 else 0) +
          if mintAfter post p = some k then (p.amount.toNat : ℤ) else 0 := by
      rw [mintAfter_cons]
      by_cases hq : q.accountIndex = p.accountIndex
      · have hrest : mintAfter post p = none := by
          rw [mintAfter, Option.map_eq_none_iff, List.find?_eq_none]
          intro b hb he
          apply hpost.1
          rw [hq, ← of_decide_eq_true he]
          exact List.mem_map_of_mem hb
        simp [hq, hrest]
      · simp [hq, Ne.symm hq]
    simp only [hpoint, List.sum_map_add, List.map_cons, List.sum_cons, ih hpost.2]
    congr 1
    by_cases hk : q.mint = k
    · simp only [hk, if_true]
      exact amountAt_eq_sum hpre q.accountIndex
    · simp [hk]

/-! ## Totals of a mint -/

/-- What the accounts of a mint hold. -/
def mintTotal (l : List RawTokenBalance) (mint : String) : ℕ :=
  (l.map fun b => if b.mint = mint then b.amount.toNat else 0).sum

theorem mintTotal_le (l : List RawTokenBalance) (mint : String) : mintTotal l mint ≤ (l.map (·.amount.toNat)).sum := by
  apply List.sum_le_sum
  intro b _
  split_ifs
  · exact le_rfl
  · exact Nat.zero_le _

/-- The accounts that hold another mint after the transaction: the mints before and after, and the balance before. -/
def reassigned (pre post : List RawTokenBalance) : List (String × String × ℕ) :=
  pre.filterMap fun p => (mintAfter post p).bind fun mint =>
    if mint = p.mint then none else some (p.mint, mint, p.amount.toNat)

/-- What was held before by the accounts that were closed for `mint` and created again for another one. -/
def movedFrom (pre post : List RawTokenBalance) (mint : String) : ℕ :=
  ((reassigned pre post).map fun r => if r.1 = mint then r.2.2 else 0).sum

/-- What was held before by the accounts that were closed for another mint and created again for `mint`. -/
def movedTo (pre post : List RawTokenBalance) (mint : String) : ℕ :=
  ((reassigned pre post).map fun r => if r.2.1 = mint then r.2.2 else 0).sum

/-- The net that the code computes for a mint. -/
def codeNet (pre post : List RawTokenBalance) (mint : String) : ℤ :=
  total ((post.filterMap (postDelta pre) ++ pre.filterMap (closedDelta post)).map (·.netItem)) mint

/-- The flows of the accounts that changed their mint, by mint. -/
def flows (pre post : List RawTokenBalance) : List (String × ℤ × Unit) :=
  (reassigned pre post).flatMap fun r => [(r.1, (r.2.2 : ℤ), ()), (r.2.1, -(r.2.2 : ℤ), ())]

theorem total_flows (mint : String) :
    total (flows pre post) mint = (movedFrom pre post mint : ℤ) - movedTo pre post mint := by
  rw [flows, movedFrom, movedTo]
  induction reassigned pre post with
  | nil => rfl
  | cons r rs ih =>
    rw [List.flatMap_cons, total_append, ih]
    simp only [total_cons, total_nil, List.map_cons, List.sum_cons, Nat.cast_add, Nat.cast_ite, Nat.cast_zero]
    split_ifs <;> omega

theorem sum_flows : ((flows pre post).map (·.2.1)).sum = 0 := by
  rw [flows]
  induction reassigned pre post with
  | nil => rfl
  | cons r rs ih => simpa using ih

/-- The shares of the entries after the transaction, balance by balance. -/
theorem sum_share (pre : List RawTokenBalance) (mint : String) (l : List RawTokenBalance) :
    (l.map (share pre mint)).sum = (mintTotal l mint : ℤ) -
      (l.map fun q => if q.mint = mint then ((amountAt pre q.accountIndex).toNat : ℤ) else 0).sum := by
  induction l with
  | nil => rfl
  | cons q l ih =>
    rw [List.map_cons, List.sum_cons, ih]
    simp only [mintTotal, share, List.map_cons, List.sum_cons, Nat.cast_add]
    split_ifs <;> omega

/-- What one more account before the transaction adds to the flows: its mint lets go of its balance, and the mint that
it holds after takes it, which cancels if the two are the same. -/
theorem total_flows_cons (post : List RawTokenBalance) (mint : String) (p : RawTokenBalance)
    (l : List RawTokenBalance) :
    total (flows (p :: l) post) mint = total (flows l post) mint +
      ((if p.mint = mint ∧ mintAfter post p ≠ none then (p.amount.toNat : ℤ) else 0) -
        if mintAfter post p = some mint then (p.amount.toNat : ℤ) else 0) := by
  cases hafter : mintAfter post p with
  | none => simp [flows, reassigned, hafter]
  | some mint' =>
    by_cases hsame : mint' = p.mint
    · simp [flows, reassigned, hafter, hsame]
    · have hcons : reassigned (p :: l) post = (p.mint, mint', p.amount.toNat) :: reassigned l post :=
        List.filterMap_cons_some (by simp [hafter, hsame])
      simp only [flows, hcons, List.flatMap_cons, total_append, total_cons, total_nil, Option.some.injEq, ne_eq,
        reduceCtorEq, not_false_eq_true, and_true]
      split_ifs <;> omega

/-- What a mint's accounts held before: those that hold it after too, those that were closed, and those that hold
another mint after, less those that come from another one. -/
theorem mintTotal_before (post : List RawTokenBalance) (mint : String) (l : List RawTokenBalance) :
    (mintTotal l mint : ℤ) = (l.map fun p => if mintAfter post p = some mint then (p.amount.toNat : ℤ) else 0).sum +
      (l.map fun p => if mintAfter post p = none ∧ p.mint = mint then (p.amount.toNat : ℤ) else 0).sum +
      total (flows l post) mint := by
  induction l with
  | nil => rfl
  | cons p l ih =>
    have hclosed : ((if p.mint = mint then p.amount.toNat else 0 : ℕ) : ℤ) =
        (if mintAfter post p = none ∧ p.mint = mint then (p.amount.toNat : ℤ) else 0) +
          if p.mint = mint ∧ mintAfter post p ≠ none then (p.amount.toNat : ℤ) else 0 := by
      cases mintAfter post p <;> simp
    rw [total_flows_cons]
    simp only [mintTotal, List.map_cons, List.sum_cons, Nat.cast_add] at ih ⊢
    rw [ih, hclosed]
    omega

/-- The net of the code is off by the balances of the accounts that changed their mint. -/
theorem codeNet_eq (hpre : (pre.map (·.accountIndex)).Nodup) (hpost : (post.map (·.accountIndex)).Nodup)
    (mint : String) :
    codeNet pre post mint = (mintTotal post mint : ℤ) - mintTotal pre mint + total (flows pre post) mint := by
  rw [codeNet, List.map_append, total_append, total_postDelta, total_closedDelta, sum_share, sum_amountAt hpre hpost,
    mintTotal_before post mint pre]
  omega

/-- The net of the code is at most what the mint's accounts hold after. -/
theorem codeNet_le (pre post : List RawTokenBalance) (mint : String) : codeNet pre post mint ≤ mintTotal post mint := by
  have hmatched : 0 ≤ (post.map fun q =>
      if q.mint = mint then ((amountAt pre q.accountIndex).toNat : ℤ) else 0).sum := by
    refine List.sum_nonneg fun x hx => ?_
    obtain ⟨q, _, rfl⟩ := List.mem_map.1 hx
    split_ifs <;> omega
  have hclosed : 0 ≤ (pre.map fun p =>
      if mintAfter post p = none ∧ p.mint = mint then (p.amount.toNat : ℤ) else 0).sum := by
    refine List.sum_nonneg fun x hx => ?_
    obtain ⟨p, _, rfl⟩ := List.mem_map.1 hx
    split_ifs <;> omega
  rw [codeNet, List.map_append, total_append, total_postDelta, total_closedDelta, sum_share]
  omega

/-! ## The rows -/

/-- The net in the row of a mint, `0` if there is none. -/
def rowNet (deltas : List TokenBalanceChange) (mint : String) : ℤ :=
  ((deltas.find? (·.mint = mint)).map (·.delta)).getD 0

/-- The deltas are the net changes by mint: at most one row for a mint, exactly one of the two amounts of a row is not
`0`, and the net of every mint is the change of its total. -/
structure NetChange (pre post : List RawTokenBalance) (deltas : List TokenBalanceChange) : Prop where
  oneRow : (deltas.map (·.mint)).Nodup
  oneSide : ∀ d ∈ deltas, (d.preAmount = 0 ∧ d.postAmount ≠ 0) ∨ (d.preAmount ≠ 0 ∧ d.postAmount = 0)
  net : ∀ mint, rowNet deltas mint = (mintTotal post mint : ℤ) - mintTotal pre mint

/-- A net of fewer than `2 ^ 64` gained tokens is never overstated by the two unsigned amounts, and exact unless it
wraps. -/
theorem oneSided_net {n : ℤ} (h : n < 2 ^ 64) :
    n ≤ ((oneSided n).2.toNat : ℤ) - (oneSided n).1.toNat ∧
      (-2 ^ 64 < n → ((oneSided n).2.toNat : ℤ) - (oneSided n).1.toNat = n) := by
  refine ⟨?_, fun hlo => (oneSided_exact hlo h).1⟩
  by_cases hlo : -2 ^ 64 < n
  · exact Int.le_of_eq (oneSided_exact hlo h).1.symm
  · have hwrap := (UInt64.ofInt (-n)).toNat_lt
    have hneg : ¬n > 0 := by omega
    rw [oneSided, if_neg hneg]
    show n ≤ ((0 : ℕ) : ℤ) - (UInt64.ofInt (-n)).toNat
    omega

theorem mem_buildTokenDeltas {d : TokenBalanceChange} : d ∈ buildTokenDeltas pre post ↔
    ∃ e ∈ netBy ((post.filterMap (postDelta pre) ++ pre.filterMap (closedDelta post)).map (·.netItem)),
      d = { mint := e.1, preAmount := (oneSided e.2.1).1, postAmount := (oneSided e.2.1).2, decimals := e.2.2 } := by
  simp only [buildTokenDeltas, coalesceTokenDeltas, List.mem_map, eq_comm]

/-- A row holds the net of the code, which is not `0`. -/
theorem row_eq {d : TokenBalanceChange} (h : d ∈ buildTokenDeltas pre post) :
    codeNet pre post d.mint ≠ 0 ∧ oneSided (codeNet pre post d.mint) = (d.preAmount, d.postAmount) := by
  obtain ⟨⟨k, n, t⟩, he, rfl⟩ := mem_buildTokenDeltas.1 h
  obtain ⟨_, rfl, hn⟩ := mem_netBy.1 he
  exact ⟨hn, rfl⟩

/-- The row of a mint holds the net of the code. -/
theorem rowNet_buildTokenDeltas (mint : String) :
    rowNet (buildTokenDeltas pre post) mint =
      ((oneSided (codeNet pre post mint)).2.toNat : ℤ) - (oneSided (codeNet pre post mint)).1.toNat := by
  cases hfind : (buildTokenDeltas pre post).find? (·.mint = mint) with
  | some d =>
    have hmint : d.mint = mint := by simpa using List.find?_some hfind
    obtain ⟨_, hd⟩ := row_eq (List.mem_of_find?_eq_some hfind)
    rw [hmint] at hd
    rw [rowNet, hfind, hd]
    rfl
  | none =>
    have hzero : codeNet pre post mint = 0 := by
      by_contra hne
      have htag := mt total_of_firstTag_none hne
      obtain ⟨t, ht⟩ := Option.ne_none_iff_exists'.1 htag
      have hmem := mem_buildTokenDeltas.2 ⟨_, mem_netBy.2 ⟨ht, rfl, hne⟩, rfl⟩
      exact List.find?_eq_none.1 hfind _ hmem (decide_eq_true rfl)
    rw [rowNet, hfind, hzero]
    rfl

/-- **When the deltas are the net changes.** For account indices that are distinct in each list, and totals of each mint
that fit in `u64`: exactly when every mint loses as much to the accounts that were closed for it and created again for
another mint as it gains from those that were created again for it. -/
theorem netChange_iff (hpre : (pre.map (·.accountIndex)).Nodup) (hpost : (post.map (·.accountIndex)).Nodup)
    (hfits : ∀ mint, mintTotal pre mint < 2 ^ 64 ∧ mintTotal post mint < 2 ^ 64) :
    NetChange pre post (buildTokenDeltas pre post) ↔ ∀ mint, movedFrom pre post mint = movedTo pre post mint := by
  have hnet (mint : String) := codeNet_eq hpre hpost mint
  have hhi (mint : String) : codeNet pre post mint < 2 ^ 64 := by
    have := codeNet_le pre post mint
    have := (hfits mint).2
    omega
  constructor
  · intro h
    -- no mint can gain from the flows, since a net below `2 ^ 64` is never overstated
    have hle : ∀ mint, total (flows pre post) mint ≤ 0 := by
      intro mint
      have hrow := h.net mint
      rw [rowNet_buildTokenDeltas] at hrow
      have := (oneSided_net (hhi mint)).1
      have := hnet mint
      omega
    intro mint
    have := total_eq_zero sum_flows hle mint
    rw [total_flows] at this
    omega
  · intro h
    have hcode (mint : String) : codeNet pre post mint = (mintTotal post mint : ℤ) - mintTotal pre mint := by
      rw [hnet, total_flows, h mint]
      omega
    have hlo (mint : String) : -2 ^ 64 < codeNet pre post mint := by
      have := hcode mint
      have := (hfits mint).1
      omega
    refine ⟨?_, fun d hd => ?_, fun mint => ?_⟩
    · have hkeys :=
        netBy_keys_nodup ((post.filterMap (postDelta pre) ++ pre.filterMap (closedDelta post)).map (·.netItem))
      rw [buildTokenDeltas, coalesceTokenDeltas, List.map_map]
      exact hkeys
    · obtain ⟨hne, hd⟩ := row_eq hd
      obtain ⟨hexact, hside⟩ := oneSided_exact (hlo d.mint) (hhi d.mint)
      simp only [hd] at hexact hside
      rcases hside with h0 | h0
      · refine Or.inl ⟨h0, fun h0' => hne ?_⟩
        rw [← hexact, h0, h0']
        rfl
      · refine Or.inr ⟨fun h0' => hne ?_, h0⟩
        rw [← hexact, h0, h0']
        rfl
    · rw [rowNet_buildTokenDeltas, (oneSided_net (hhi mint)).2 (hlo mint), hcode]

/-- An account that is closed for one mint and created again for the other, and one that goes the other way: what they
take away is what they bring. -/
theorem netChange_iff_example :
    let pre : List RawTokenBalance := [⟨1, "A", ⟨"10", 6⟩⟩, ⟨2, "B", ⟨"10", 6⟩⟩]
    let post : List RawTokenBalance := [⟨1, "B", ⟨"4", 6⟩⟩, ⟨2, "A", ⟨"30", 6⟩⟩]
    NetChange pre post (buildTokenDeltas pre post) := by
  intro pre post
  refine (netChange_iff (by decide) (by decide) fun mint => ?_).2 fun mint => ?_
  · exact ⟨(mintTotal_le pre mint).trans_lt (by decide), (mintTotal_le post mint).trans_lt (by decide)⟩
  · have hreassigned : reassigned pre post = [("A", "B", 10), ("B", "A", 10)] := by decide
    rw [movedFrom, movedTo, hreassigned]
    simp [Nat.add_comm]

/-- An account of 10 `A` is closed and created again with 5 `B`: the row of `B` shows a loss of 5, and `A` has no row.
-/
theorem reassigned_account :
    let pre : List RawTokenBalance := [⟨1, "A", ⟨"10", 6⟩⟩]
    let post : List RawTokenBalance := [⟨1, "B", ⟨"5", 6⟩⟩]
    (pre.map (·.accountIndex)).Nodup ∧ (post.map (·.accountIndex)).Nodup ∧
    (∀ mint, mintTotal pre mint < 2 ^ 64 ∧ mintTotal post mint < 2 ^ 64) ∧
    buildTokenDeltas pre post = [⟨"B", 5, 0, 6⟩] ∧ ¬NetChange pre post (buildTokenDeltas pre post) := by
  intro pre post
  refine ⟨by decide, by decide, fun mint => ?_, by decide, fun h => ?_⟩
  · exact ⟨(mintTotal_le pre mint).trans_lt (by decide), (mintTotal_le post mint).trans_lt (by decide)⟩
  · have := h.net "A"
    revert this
    decide

end Tenso.Ingest
