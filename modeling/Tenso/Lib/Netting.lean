import Mathlib.Algebra.BigOperators.Group.Finset.Piecewise
import Mathlib.Algebra.BigOperators.Group.List.Basic
import Mathlib.Algebra.Order.BigOperators.Group.Finset
import Mathlib.Algebra.Ring.Int.Defs
import Tenso.Lib.HashMap

/-!
# Netting changes by key

`netBy` adds up signed changes per key in a hash map, keeps the keys in first-seen order and the tag of each key's
first change, and drops the keys whose net is `0`. Its entries are the keys with a non-zero total (`mem_netBy`), each
once (`netBy_keys_nodup`).

Netting commutes with selecting and renaming keys (`netBy_filterMap`), and leaves changes alone that are netted already
(`netBy_eq_self`).

`oneSided` writes a net amount as a pair of unsigned amounts of which at most one is not `0`.
-/

namespace Netting

variable {κ τ : Type} [DecidableEq κ]

/-- The nets so far, and the keys in first-seen order. -/
structure Acc (κ τ : Type) where
  net : HashMap κ (ℤ × τ)
  order : List κ

/-- Add one change. -/
def addChange (acc : Acc κ τ) (c : κ × ℤ × τ) : Acc κ τ :=
  match acc.net.lookup c.1 with
  | some (n, t) => { acc with net := acc.net.insert c.1 (n + c.2.1, t) }
  | none => { net := acc.net.insert c.1 c.2, order := acc.order ++ [c.1] }

/-- The entry of a key, unless its net is `0`. -/
def netEntry (net : HashMap κ (ℤ × τ)) (k : κ) : Option (κ × ℤ × τ) := do
  let (n, t) ← net.lookup k
  if n = 0 then none else some (k, n, t)

/-- The nets of the changes, one entry a key, in first-seen order. -/
def netBy (cs : List (κ × ℤ × τ)) : List (κ × ℤ × τ) :=
  let acc := cs.foldl addChange ⟨∅, []⟩
  acc.order.filterMap (netEntry acc.net)

/-- A net amount as two unsigned amounts: what went in and what came out (`n as u64`, `(-n) as u64`). -/
def oneSided (n : ℤ) : UInt64 × UInt64 := if n > 0 then (0, UInt64.ofInt n) else (UInt64.ofInt (-n), 0)

theorem toNat_ofInt {n : ℤ} (h0 : 0 ≤ n) (h : n < 2 ^ 64) : ((UInt64.ofInt n).toNat : ℤ) = n := by
  rw [UInt64.ofInt, UInt64.toNat_ofNat', Int.emod_eq_of_lt h0 h]
  omega

/-- A net that fits 64 bits is the difference of its two sides, and one side is `0`. -/
theorem oneSided_exact {n : ℤ} (hlo : -2 ^ 64 < n) (hhi : n < 2 ^ 64) :
    ((oneSided n).2.toNat : ℤ) - (oneSided n).1.toNat = n ∧ ((oneSided n).1 = 0 ∨ (oneSided n).2 = 0) := by
  unfold oneSided
  split
  · rename_i hpos
    exact ⟨by simpa using toNat_ofInt (Int.le_of_lt hpos) hhi, Or.inl rfl⟩
  · rename_i hneg
    have hn := toNat_ofInt (n := -n) (by omega) (by omega)
    refine ⟨?_, Or.inr rfl⟩
    show (0 : ℤ) - _ = n
    rw [hn, Int.zero_sub, Int.neg_neg]

/-- The two sides of a net that fits 64 bits, as numbers. -/
theorem oneSided_toNat {n : ℤ} (hlo : -2 ^ 64 < n) (hhi : n < 2 ^ 64) :
    (oneSided n).1.toNat = (-n).toNat ∧ (oneSided n).2.toNat = n.toNat := by
  unfold oneSided
  split
  · have hn := toNat_ofInt (n := n) (by omega) hhi
    exact ⟨show 0 = (-n).toNat by omega, show (UInt64.ofInt n).toNat = n.toNat by omega⟩
  · have hn := toNat_ofInt (n := -n) (by omega) (by omega)
    exact ⟨show (UInt64.ofInt (-n)).toNat = (-n).toNat by omega, show 0 = n.toNat by omega⟩

/-! ## What netting computes -/

/-- The sum of the changes of a key. -/
def total (cs : List (κ × ℤ × τ)) (k : κ) : ℤ := (cs.map fun c => if c.1 = k then c.2.1 else 0).sum

/-- The tag of the first change of a key. -/
def firstTag (cs : List (κ × ℤ × τ)) (k : κ) : Option τ := (cs.find? fun c => c.1 = k).map (·.2.2)

@[simp] theorem total_nil (k : κ) : total ([] : List (κ × ℤ × τ)) k = 0 := rfl

theorem total_cons (c : κ × ℤ × τ) (cs : List (κ × ℤ × τ)) (k : κ) :
    total (c :: cs) k = (if c.1 = k then c.2.1 else 0) + total cs k := by simp [total]

theorem total_append (cs cs' : List (κ × ℤ × τ)) (k : κ) : total (cs ++ cs') k = total cs k + total cs' k := by
  simp [total]

/-- The totals of all keys add up to the sum of the changes. -/
theorem sum_total {cs : List (κ × ℤ × τ)} {ks : Finset κ} (h : ∀ c ∈ cs, c.1 ∈ ks) :
    ∑ k ∈ ks, total cs k = (cs.map (·.2.1)).sum := by
  induction cs with
  | nil => simp
  | cons c cs ih =>
    rw [List.forall_mem_cons] at h
    simp only [total_cons, Finset.sum_add_distrib, ih h.2, Finset.sum_ite_eq, h.1, if_true,
      List.map_cons, List.sum_cons]

/-- Conservation: if the changes add up to `0` and no key gains, no key changes at all. -/
theorem total_eq_zero {cs : List (κ × ℤ × τ)} (hsum : (cs.map (·.2.1)).sum = 0) (h : ∀ k, total cs k ≤ 0) (k : κ) :
    total cs k = 0 := by
  let ks : Finset κ := insert k (cs.map (·.1)).toFinset
  have hks : ∀ c ∈ cs, c.1 ∈ ks := fun c hc =>
    Finset.mem_insert_of_mem (List.mem_toFinset.2 (List.mem_map_of_mem hc))
  have hzero : ∑ k ∈ ks, total cs k = 0 := by rw [sum_total hks, hsum]
  exact (Finset.sum_eq_zero_iff_of_nonpos fun k _ => h k).1 hzero k (Finset.mem_insert_self _ _)

/-- The accumulator after the changes `cs`. -/
structure AccSpec (cs : List (κ × ℤ × τ)) (acc : Acc κ τ) : Prop where
  lookup : ∀ k, acc.net.lookup k = (firstTag cs k).map fun t => (total cs k, t)
  nodup : acc.order.Nodup
  mem : ∀ k, k ∈ acc.order ↔ (firstTag cs k).isSome

theorem accSpec_nil : AccSpec ([] : List (κ × ℤ × τ)) ⟨∅, []⟩ :=
  ⟨fun _ => rfl, List.nodup_nil, fun _ => by simp [firstTag]⟩

theorem firstTag_append (cs : List (κ × ℤ × τ)) (c : κ × ℤ × τ) (k : κ) :
    firstTag (cs ++ [c]) k = (firstTag cs k).or (if c.1 = k then some c.2.2 else none) := by
  simp only [firstTag, List.find?_append, List.find?_singleton, decide_eq_true_eq]
  cases cs.find? fun c => decide (c.1 = k) with
  | some d => rfl
  | none => by_cases h : c.1 = k <;> simp [h]

/-- The tag of a key is that of one of its changes. -/
theorem exists_of_firstTag {cs : List (κ × ℤ × τ)} {k : κ} {t : τ} (h : firstTag cs k = some t) :
    ∃ c ∈ cs, c.1 = k ∧ c.2.2 = t := by
  obtain ⟨c, hc, rfl⟩ := Option.map_eq_some_iff.1 h
  exact ⟨c, List.mem_of_find?_eq_some hc, by simpa using List.find?_some hc, rfl⟩

/-- A key without a change has the total `0`. -/
theorem total_of_firstTag_none {cs : List (κ × ℤ × τ)} {k : κ} (h : firstTag cs k = none) : total cs k = 0 := by
  rw [firstTag, Option.map_eq_none_iff, List.find?_eq_none] at h
  refine List.sum_eq_zero fun x hx => ?_
  obtain ⟨c, hc, rfl⟩ := List.mem_map.1 hx
  exact if_neg fun he => h c hc (decide_eq_true he)

/-- One change keeps the specification. -/
theorem AccSpec.addChange {cs : List (κ × ℤ × τ)} {acc : Acc κ τ} (h : AccSpec cs acc) (c : κ × ℤ × τ) :
    AccSpec (cs ++ [c]) (addChange acc c) := by
  obtain ⟨k, n, t⟩ := c
  have htot : ∀ k', total (cs ++ [(k, n, t)]) k' = total cs k' + if k = k' then n else 0 := fun k' => by
    rw [total_append, total_cons, total_nil, add_zero]
  have hk := h.lookup k
  unfold Netting.addChange
  cases hf : firstTag cs k with
  | some t' =>
    rw [hf, Option.map_some] at hk
    simp only [hk]
    refine ⟨fun k' => ?_, h.nodup, fun k' => ?_⟩
    · rw [firstTag_append, htot]
      by_cases he : k' = k
      · subst he
        simp [hf]
      · rw [AList.lookup_insert_ne he, h.lookup, if_neg (Ne.symm he), if_neg (Ne.symm he), Option.or_none, add_zero]
    · rw [h.mem, firstTag_append]
      by_cases he : k = k'
      · subst he
        simp [hf]
      · rw [if_neg he, Option.or_none]
  | none =>
    rw [hf, Option.map_none] at hk
    have hzero := total_of_firstTag_none hf
    simp only [hk]
    refine ⟨fun k' => ?_, ?_, fun k' => ?_⟩
    · rw [firstTag_append, htot]
      by_cases he : k' = k
      · subst he
        simp [hf, hzero]
      · rw [AList.lookup_insert_ne he, h.lookup, if_neg (Ne.symm he), if_neg (Ne.symm he), Option.or_none, add_zero]
    · have hnot : k ∉ acc.order := fun hm => by
        rw [h.mem, hf] at hm
        cases hm
      exact List.nodup_append.2 ⟨h.nodup, List.nodup_singleton k, fun a ha b hb he =>
        hnot (List.mem_singleton.1 hb ▸ he ▸ ha)⟩
    · rw [List.mem_append, List.mem_singleton, h.mem, firstTag_append]
      by_cases he : k = k'
      · subst he
        simp
      · simp [he, Ne.symm he]

/-- The accumulator after a run over the changes. -/
theorem accSpec_foldl : ∀ (cs : List (κ × ℤ × τ)) {done : List (κ × ℤ × τ)} {acc : Acc κ τ}, AccSpec done acc →
    AccSpec (done ++ cs) (cs.foldl addChange acc)
  | [], done, acc, h => by simpa using h
  | c :: cs, done, acc, h => by
    have := accSpec_foldl cs (h.addChange c)
    simpa using this

theorem accSpec (cs : List (κ × ℤ × τ)) : AccSpec cs (cs.foldl addChange ⟨∅, []⟩) := accSpec_foldl cs accSpec_nil

theorem netEntry_eq_some {net : HashMap κ (ℤ × τ)} {k : κ} {e : κ × ℤ × τ} :
    netEntry net k = some e ↔ e.1 = k ∧ net.lookup k = some e.2 ∧ e.2.1 ≠ 0 := by
  obtain ⟨k', n, t⟩ := e
  unfold netEntry
  cases h : net.lookup k with
  | none => simp
  | some p =>
    obtain ⟨m, t'⟩ := p
    simp only [Option.bind_eq_bind, Option.bind_some, Option.some.injEq, Prod.mk.injEq]
    by_cases hm : m = 0
    · simp only [hm, if_true, reduceCtorEq, false_iff]
      rintro ⟨_, ⟨rfl, _⟩, hne⟩
      exact hne rfl
    · simp only [hm, if_false, Option.some.injEq, Prod.mk.injEq]
      constructor
      · rintro ⟨rfl, rfl, rfl⟩
        exact ⟨rfl, ⟨rfl, rfl⟩, hm⟩
      · rintro ⟨rfl, ⟨rfl, rfl⟩, _⟩
        exact ⟨rfl, rfl, rfl⟩

/-- The entries of `netBy`: the keys with a non-zero total, with the tag of their first change. -/
theorem mem_netBy {cs : List (κ × ℤ × τ)} {k : κ} {n : ℤ} {t : τ} :
    (k, n, t) ∈ netBy cs ↔ firstTag cs k = some t ∧ n = total cs k ∧ n ≠ 0 := by
  have h := accSpec cs
  simp only [netBy, List.mem_filterMap, netEntry_eq_some, h.lookup, Option.map_eq_some_iff, Prod.mk.injEq]
  constructor
  · rintro ⟨k', _, rfl, ⟨t', ht, rfl, rfl⟩, hn⟩
    exact ⟨ht, rfl, hn⟩
  · rintro ⟨ht, rfl, hn⟩
    exact ⟨k, (h.mem k).2 (by rw [ht]; rfl), rfl, ⟨t, ht, rfl, rfl⟩, hn⟩

/-- Every key has at most one entry. -/
theorem netBy_keys_nodup (cs : List (κ × ℤ × τ)) : ((netBy cs).map (·.1)).Nodup := by
  have h := accSpec cs
  refine h.nodup.sublist ?_
  unfold netBy
  simp only
  induction (cs.foldl addChange ⟨∅, []⟩).order with
  | nil => exact List.Sublist.refl _
  | cons k ks ih =>
    cases he : netEntry (cs.foldl addChange ⟨∅, []⟩).net k with
    | none =>
      rw [List.filterMap_cons_none he]
      exact ih.cons k
    | some e =>
      rw [List.filterMap_cons_some he, List.map_cons, (netEntry_eq_some.1 he).1]
      exact ih.cons_cons k

/-- Without a non-zero total there is no entry. -/
theorem netBy_eq_nil {cs : List (κ × ℤ × τ)} (h : ∀ k, total cs k = 0) : netBy cs = [] := by
  refine List.eq_nil_iff_forall_not_mem.2 ?_
  rintro ⟨k, n, t⟩ hm
  obtain ⟨_, rfl, hn⟩ := mem_netBy.1 hm
  exact hn (h k)

/-! ## Renaming keys -/

section Renaming

variable {κ' : Type} [DecidableEq κ'] {sel : κ → Option κ'}

/-- Two accumulators agree on the selected keys. -/
structure AccSim (sel : κ → Option κ') (acc : Acc κ τ) (acc' : Acc κ' τ) : Prop where
  order : acc'.order = acc.order.filterMap sel
  lookup : ∀ k k', sel k = some k' → acc'.net.lookup k' = acc.net.lookup k

/-- The change under the new key, if the key is selected. -/
def renameKey (sel : κ → Option κ') (c : κ × ℤ × τ) : Option (κ' × ℤ × τ) := (sel c.1).map fun k' => (k', c.2)

/-- A change of a key that is not selected does not show. -/
theorem AccSim.skip {acc : Acc κ τ} {acc' : Acc κ' τ} (h : AccSim sel acc acc') {c : κ × ℤ × τ} (hc : sel c.1 = none) :
    AccSim sel (Netting.addChange acc c) acc' := by
  have hne : ∀ k k', sel k = some k' → k ≠ c.1 := by
    rintro k k' hk rfl
    rw [hc] at hk
    cases hk
  unfold Netting.addChange
  cases acc.net.lookup c.1 with
  | some e => exact ⟨h.order, fun k k' hk => by rw [AList.lookup_insert_ne (hne k k' hk), h.lookup k k' hk]⟩
  | none =>
    refine ⟨by simp [h.order, hc], fun k k' hk => ?_⟩
    rw [AList.lookup_insert_ne (hne k k' hk), h.lookup k k' hk]

/-- A change of a selected key shows under its new key. -/
theorem AccSim.add {acc : Acc κ τ} {acc' : Acc κ' τ} (h : AccSim sel acc acc')
    (hinj : ∀ k l k', sel k = some k' → sel l = some k' → k = l) {c : κ × ℤ × τ} {k' : κ'} (hc : sel c.1 = some k') :
    AccSim sel (Netting.addChange acc c) (Netting.addChange acc' (k', c.2)) := by
  -- writing the selected key on both sides keeps the lookups equal
  have hinsert (e : ℤ × τ) : ∀ l l', sel l = some l' →
      AList.lookup l' (acc'.net.insert k' e) = AList.lookup l (acc.net.insert c.1 e) := by
    intro l l' hl
    by_cases hlc : l = c.1
    · subst hlc
      rw [hc, Option.some.injEq] at hl
      subst hl
      simp
    · have hne : l' ≠ k' := fun he => hlc (hinj l c.1 l' hl (by rw [hc, he]))
      rw [AList.lookup_insert_ne hlc, AList.lookup_insert_ne hne, h.lookup l l' hl]
  unfold Netting.addChange
  simp only [h.lookup c.1 k' hc]
  cases acc.net.lookup c.1 with
  | some e => exact ⟨h.order, hinsert _⟩
  | none => exact ⟨by simp [h.order, hc], hinsert _⟩

/-- The simulation holds over a run. -/
theorem AccSim.foldl (hinj : ∀ k l k', sel k = some k' → sel l = some k' → k = l) :
    ∀ (cs : List (κ × ℤ × τ)) {acc : Acc κ τ} {acc' : Acc κ' τ}, AccSim sel acc acc' →
      AccSim sel (cs.foldl Netting.addChange acc) ((cs.filterMap (renameKey sel)).foldl Netting.addChange acc')
  | [], _, _, h => h
  | c :: cs, acc, acc', h => by
    cases hc : sel c.1 with
    | none =>
      have hr : renameKey sel c = none := by simp [renameKey, hc]
      rw [List.foldl_cons, List.filterMap_cons_none hr]
      exact AccSim.foldl hinj cs (h.skip hc)
    | some k' =>
      have hr : renameKey sel c = some (k', c.2) := by simp [renameKey, hc]
      rw [List.foldl_cons, List.filterMap_cons_some hr, List.foldl_cons]
      exact AccSim.foldl hinj cs (h.add hinj hc)

/-- Netting commutes with selecting and renaming keys, as long as no two keys get the same name. -/
theorem netBy_filterMap (hinj : ∀ k l k', sel k = some k' → sel l = some k' → k = l) (cs : List (κ × ℤ × τ)) :
    netBy (cs.filterMap (renameKey sel)) = (netBy cs).filterMap (renameKey sel) := by
  have hsim : AccSim sel (cs.foldl addChange ⟨∅, []⟩) ((cs.filterMap (renameKey sel)).foldl addChange ⟨∅, []⟩) :=
    AccSim.foldl hinj cs ⟨rfl, fun _ _ _ => rfl⟩
  simp only [netBy, hsim.order, List.filterMap_filterMap]
  apply List.filterMap_congr
  intro k _
  cases hk : sel k with
  | none =>
    cases he : netEntry (cs.foldl addChange ⟨∅, []⟩).net k with
    | none => simp
    | some e => simp [renameKey, (netEntry_eq_some.1 he).1, hk]
  | some k' =>
    have hlookup := hsim.lookup k k' hk
    simp only [netEntry, Option.bind_some, hlookup]
    cases (cs.foldl addChange ⟨∅, []⟩).net.lookup k with
    | none => rfl
    | some e =>
      simp only [Option.bind_eq_bind, Option.bind_some]
      split
      · rfl
      · simp [renameKey, hk]

end Renaming

/-! ## Changes that are netted already -/

theorem firstTag_of_mem {cs : List (κ × ℤ × τ)} (hd : (cs.map (·.1)).Nodup) {c : κ × ℤ × τ} (hc : c ∈ cs) :
    firstTag cs c.1 = some c.2.2 ∧ total cs c.1 = c.2.1 := by
  obtain ⟨pre, post, rfl⟩ := List.append_of_mem hc
  simp only [List.map_append, List.map_cons, List.nodup_append, List.nodup_cons, List.mem_cons, forall_eq_or_imp] at hd
  obtain ⟨_, ⟨hpost, _⟩, hpre⟩ := hd
  have hzero : ∀ l : List (κ × ℤ × τ), (∀ d ∈ l, d.1 ≠ c.1) → total l c.1 = 0 ∧ firstTag l c.1 = none := by
    intro l hl
    have htag : firstTag l c.1 = none := by simpa [firstTag] using hl
    exact ⟨total_of_firstTag_none htag, htag⟩
  obtain ⟨htot, htag⟩ := hzero pre fun d hd => (hpre d.1 (List.mem_map_of_mem hd)).1
  obtain ⟨htot', _⟩ := hzero post fun d hd he => hpost (he ▸ List.mem_map_of_mem hd)
  constructor
  · rw [firstTag, List.find?_append]
    rw [firstTag, Option.map_eq_none_iff] at htag
    simp [htag]
  · rw [total_append, total_cons, htot, htot']
    simp

/-- Distinct keys are listed in the order of their changes. -/
theorem order_foldl : ∀ (cs : List (κ × ℤ × τ)) {done : List (κ × ℤ × τ)} {acc : Acc κ τ}, AccSpec done acc →
    ((done ++ cs).map (·.1)).Nodup → (cs.foldl addChange acc).order = acc.order ++ cs.map (·.1)
  | [], done, acc, _, _ => by simp
  | c :: cs, done, acc, h, hd => by
    have hnew : acc.net.lookup c.1 = none := by
      rw [h.lookup, Option.map_eq_none_iff, firstTag, Option.map_eq_none_iff, List.find?_eq_none]
      intro d hdone he
      rw [List.map_append, List.nodup_append] at hd
      exact hd.2.2 d.1 (List.mem_map_of_mem hdone) c.1 (by simp) (by simpa using he)
    have hrest := order_foldl cs (h.addChange c) (by simpa using hd)
    rw [List.foldl_cons, hrest, addChange, hnew]
    simp

/-- **Netting changes nothing** where every key has one change, and none is `0`. -/
theorem netBy_eq_self {cs : List (κ × ℤ × τ)} (hd : (cs.map (·.1)).Nodup) (h0 : ∀ c ∈ cs, c.2.1 ≠ 0) :
    netBy cs = cs := by
  have horder := order_foldl cs accSpec_nil (by simpa using hd)
  rw [netBy]
  simp only [horder, List.nil_append, List.filterMap_map]
  have hentry : ∀ c ∈ cs, (netEntry (cs.foldl addChange ⟨∅, []⟩).net ∘ fun c => c.1) c = some c := by
    intro c hc
    obtain ⟨htag, htot⟩ := firstTag_of_mem hd hc
    refine netEntry_eq_some.2 ⟨rfl, ?_, h0 c hc⟩
    rw [(accSpec cs).lookup, htag, htot]
    rfl
  rw [List.filterMap_congr hentry, List.filterMap_some]

end Netting
