import Mathlib.Algebra.Order.Field.Rat
import Mathlib.Tactic.NormNum
import Tenso.Ingest.Fetch
import Tenso.Lib.Bucket

/-!
# The rate limiter over time

Tasks take turns at the lock of the limiter. A turn is one iteration of the loop of `acquire`: it refills the bucket
for the time since the turn before, and takes a token or tells how long to sleep (`iterate`). With clock readings in
order the turns are a run of a token bucket, so the tokens stay within the burst, and the grants in any window of time
within the burst and the flow over the window (`acquire_bounded`).

A lone caller that sleeps as long as it is told leaves the loop in its second iteration exactly when the burst holds a
token; with a burst below one it never leaves (`acquire_leaves_iff`).

The pool polls its bucket with the time since the last poll, so its runs are turns at the limiter (`Pool.exists_turns`).
-/

namespace Tenso.Ingest

/-- The limiter: the bucket, and when it was last refilled. -/
structure TokenBucketLimiter where
  bucket : TokenBucket
  lastRefill : ℚ

/-- A turn of a task at the lock, with the reading of its clock. -/
structure Turn where
  task : ℕ
  now : ℚ

/-- `now.duration_since(earlier)`, in seconds: zero if `earlier` is later. -/
def durationSince (now earlier : ℚ) : ℚ := max 0 (now - earlier)

namespace TokenBucketLimiter

/-- A full bucket, at the time of its making. -/
def new (ratePerSec burst now : ℚ) : TokenBucketLimiter := ⟨.new ratePerSec burst, now⟩

/-- One iteration of `acquire`: nothing to wait for, since a token was taken, or how long to sleep. -/
def iterate (l : TokenBucketLimiter) (now : ℚ) : Option ℚ × TokenBucketLimiter :=
  let (got, bucket) := l.bucket.poll (durationSince now l.lastRefill)
  let deficit := 1 - bucket.tokens
  (if got then none else some (deficit / bucket.refillPerSec), ⟨bucket, now⟩)

/-- The limiter after some turns. -/
def after (l : TokenBucketLimiter) (turns : List Turn) : TokenBucketLimiter :=
  turns.foldl (fun l turn => (l.iterate turn.now).2) l

/-- The turns that took a token. -/
def grants (l : TokenBucketLimiter) : List Turn → List Turn
  | [] => []
  | turn :: turns => if (l.iterate turn.now).1 = none then turn :: (l.iterate turn.now).2.grants turns
    else (l.iterate turn.now).2.grants turns

/-- A lone caller that comes to the loop at a time leaves it within some iterations, however much longer than it is
told it sleeps in between. -/
def LeavesWithin : ℕ → TokenBucketLimiter → ℚ → Prop
  | 0, _, _ => False
  | n + 1, l, now => ∀ wait, (l.iterate now).1 = some wait → ∀ now', now + wait ≤ now' →
      LeavesWithin n (l.iterate now).2 now'

/-! ## One iteration -/

theorem after_snoc (l : TokenBucketLimiter) (turns : List Turn) (turn : Turn) :
    l.after (turns ++ [turn]) = ((l.after turns).iterate turn.now).2 := List.foldl_concat ..

theorem grants_snoc (l : TokenBucketLimiter) (turns : List Turn) (turn : Turn) : l.grants (turns ++ [turn]) =
    l.grants turns ++ if ((l.after turns).iterate turn.now).1 = none then [turn] else [] := by
  induction turns generalizing l with
  | nil =>
    simp only [List.nil_append, grants]
    rfl
  | cons first turns ih =>
    simp only [List.cons_append, grants, ih]
    split
    · rfl
    · rfl

theorem iterate_capacity (l : TokenBucketLimiter) (now : ℚ) :
    (l.iterate now).2.bucket.capacity = l.bucket.capacity := (poll_capacity rfl).1

theorem iterate_refillPerSec (l : TokenBucketLimiter) (now : ℚ) :
    (l.iterate now).2.bucket.refillPerSec = l.bucket.refillPerSec := (poll_capacity rfl).2

theorem after_capacity (l : TokenBucketLimiter) (turns : List Turn) :
    (l.after turns).bucket.capacity = l.bucket.capacity := by
  induction turns using List.reverseRecOn with
  | nil => rfl
  | append_singleton turns turn ih => rw [after_snoc, iterate_capacity, ih]

theorem after_refillPerSec (l : TokenBucketLimiter) (turns : List Turn) :
    (l.after turns).bucket.refillPerSec = l.bucket.refillPerSec := by
  induction turns using List.reverseRecOn with
  | nil => rfl
  | append_singleton turns turn ih => rw [after_snoc, iterate_refillPerSec, ih]

/-- The tokens that an iteration finds. -/
def refilled (l : TokenBucketLimiter) (now : ℚ) : ℚ :=
  min (l.bucket.tokens + durationSince now l.lastRefill * l.bucket.refillPerSec) l.bucket.capacity

/-- An iteration takes a token if it finds one. -/
theorem iterate_of_le {l : TokenBucketLimiter} {now : ℚ} (h : 1 ≤ l.refilled now) :
    (l.iterate now).1 = none ∧ (l.iterate now).2.bucket.tokens = l.refilled now - 1 := by
  unfold refilled at h
  simp [iterate, TokenBucket.poll, refilled, h]

/-- Otherwise it tells the caller to sleep until there is one. -/
theorem iterate_of_lt {l : TokenBucketLimiter} {now : ℚ} (h : l.refilled now < 1) :
    (l.iterate now).1 = some ((1 - l.refilled now) / l.bucket.refillPerSec) ∧
      (l.iterate now).2.bucket.tokens = l.refilled now := by
  have hle := not_le.2 h
  unfold refilled at hle
  simp [iterate, TokenBucket.poll, refilled, hle]

/-! ## Turns in the order of time -/

/-- The limiter, as a token bucket sees it. -/
def state (l : TokenBucketLimiter) : Bucket.State ℚ := ⟨l.bucket.tokens, l.lastRefill⟩

theorem refilled_nonneg {l : TokenBucketLimiter} {now : ℚ} (htokens : 0 ≤ l.bucket.tokens)
    (hrate : 0 ≤ l.bucket.refillPerSec) (hcap : 0 ≤ l.bucket.capacity) : 0 ≤ l.refilled now := by
  have helapsed : 0 ≤ durationSince now l.lastRefill := le_max_left 0 _
  exact le_min (add_nonneg htokens (mul_nonneg helapsed hrate)) hcap

/-- An iteration is a turn of the bucket, which takes one token or none. -/
theorem iterate_turn {l : TokenBucketLimiter} {now : ℚ} (hmono : l.lastRefill ≤ now) (htokens : 0 ≤ l.bucket.tokens)
    (hrate : 0 ≤ l.bucket.refillPerSec) (hcap : 0 ≤ l.bucket.capacity) :
    Bucket.Turn l.bucket.refillPerSec l.bucket.capacity l.state now (if (l.iterate now).1 = none then 1 else 0)
      (l.iterate now).2.state := by
  have helapsed : durationSince now l.lastRefill = now - l.lastRefill := max_eq_right (sub_nonneg.2 hmono)
  have hrefilled : l.refilled now =
      min (l.bucket.tokens + (now - l.lastRefill) * l.bucket.refillPerSec) l.bucket.capacity := by
    rw [refilled, helapsed]
  rcases le_or_gt 1 (l.refilled now) with hle | hlt
  · obtain ⟨hgot, htokens'⟩ := iterate_of_le hle
    refine ⟨?_, rfl, ?_, ?_⟩
    · rw [if_pos hgot]
      show (l.iterate now).2.bucket.tokens + 1 = _
      rw [htokens', sub_add_cancel, hrefilled]
      rfl
    · rw [if_pos hgot]
      exact zero_le_one
    · exact (sub_nonneg.2 hle).trans_eq htokens'.symm
  · obtain ⟨hwait, htokens'⟩ := iterate_of_lt hlt
    have hdenied : ¬(l.iterate now).1 = none := by
      rw [hwait]
      exact nofun
    refine ⟨?_, rfl, ?_, ?_⟩
    · rw [if_neg hdenied, add_zero]
      show (l.iterate now).2.bucket.tokens = _
      rw [htokens', hrefilled]
      rfl
    · rw [if_neg hdenied]
    · exact (refilled_nonneg htokens hrate hcap).trans_eq htokens'.symm

/-- The turns are a run of the bucket, which takes the granted tokens. -/
theorem exists_run {l : TokenBucketLimiter} {turns : List Turn} (htokens : 0 ≤ l.bucket.tokens)
    (hfull : l.bucket.tokens ≤ l.bucket.capacity) (hrate : 0 ≤ l.bucket.refillPerSec)
    (hmono : turns.Pairwise (·.now ≤ ·.now)) (hstart : ∀ turn ∈ turns, l.lastRefill ≤ turn.now) :
    ∃ takes, Bucket.Run l.bucket.refillPerSec l.bucket.capacity l.state takes (l.after turns).state ∧
      ∀ (p : ℚ → Prop) [DecidablePred p],
        Bucket.taken p takes = ((l.grants turns).filter fun turn => p turn.now).length := by
  induction turns using List.reverseRecOn with
  | nil => exact ⟨[], .nil, fun p _ => by simp [grants]⟩
  | append_singleton turns turn ih =>
    rw [List.pairwise_append] at hmono
    rw [List.forall_mem_append, List.forall_mem_singleton] at hstart
    obtain ⟨takes, hrun, htaken⟩ := ih hmono.1 hstart.1
    have hprev : (l.after turns).lastRefill ≤ turn.now := by
      rcases List.eq_nil_or_concat' turns with rfl | ⟨init, last, rfl⟩
      · exact hstart.2
      · rw [after_snoc]
        exact hmono.2.2 last (by simp) turn (by simp)
    have hmem := hrun.tokens_mem ⟨htokens, hfull⟩
    have hturn := @iterate_turn (l.after turns) turn.now hprev hmem.1 (by rwa [after_refillPerSec])
      (by rw [after_capacity]; exact htokens.trans hfull)
    rw [after_refillPerSec, after_capacity] at hturn
    refine ⟨_, by rw [after_snoc]; exact hrun.snoc hprev hturn, fun p _ => ?_⟩
    rw [Bucket.taken_snoc, htaken, grants_snoc, List.filter_append, List.length_append, Nat.cast_add]
    by_cases hgot : ((l.after turns).iterate turn.now).1 = none <;> by_cases hp : p turn.now <;> simp [hgot, hp]

/-- It makes no difference when a full bucket was made. -/
theorem new_iterate {ratePerSec burst : ℚ} (hrate : 0 ≤ ratePerSec) (start now : ℚ) :
    (new ratePerSec burst start).iterate now = (new ratePerSec burst now).iterate now := by
  have hfull : ∀ elapsed, 0 ≤ elapsed →
      TokenBucket.poll (.new ratePerSec burst) elapsed = TokenBucket.poll (.new ratePerSec burst) 0 := by
    intro elapsed helapsed
    have hflow : burst ≤ burst + elapsed * ratePerSec := le_add_of_nonneg_right (mul_nonneg helapsed hrate)
    simp [TokenBucket.poll, TokenBucket.new, min_eq_right hflow]
  have hpoll : TokenBucket.poll (.new ratePerSec burst) (durationSince now start) =
      TokenBucket.poll (.new ratePerSec burst) (durationSince now now) :=
    (hfull _ (le_max_left 0 _)).trans (hfull _ (le_max_left 0 _)).symm
  exact congrArg (fun turn : Bool × TokenBucket =>
    (if turn.1 then none else some ((1 - turn.2.tokens) / turn.2.refillPerSec),
      (⟨turn.2, now⟩ : TokenBucketLimiter))) hpoll

end TokenBucketLimiter

/-! ## The bound -/

/-- The bound on the turns of a limiter that was made before them. -/
theorem acquire_bounded_of_start {ratePerSec burst start : ℚ} (hrate : 0 < ratePerSec) (hburst : 0 ≤ burst)
    {turns : List Turn} (hmono : turns.Pairwise (·.now ≤ ·.now)) (hstart : ∀ turn ∈ turns, start ≤ turn.now) :
    let limiter := TokenBucketLimiter.new ratePerSec burst start
    (0 ≤ (limiter.after turns).bucket.tokens ∧ (limiter.after turns).bucket.tokens ≤ burst) ∧
    ∀ s t, s ≤ t → (((limiter.grants turns).filter fun turn => s ≤ turn.now ∧ turn.now ≤ t).length : ℚ) ≤
      burst + ratePerSec * (t - s) := by
  intro limiter
  obtain ⟨takes, hrun, htaken⟩ := @TokenBucketLimiter.exists_run limiter turns hburst le_rfl hrate.le hmono hstart
  refine ⟨hrun.tokens_mem ⟨hburst, le_rfl⟩, fun s t hst => ?_⟩
  rw [← htaken fun now => s ≤ now ∧ now ≤ t]
  exact hrun.taken_le hrate.le hburst le_rfl hst

/-- **The bound of the token bucket.** Whatever turns tasks take at non-decreasing times, the tokens stay between zero
and the burst, and the grants in a window of time are at most the burst and the flow over the window. -/
theorem acquire_bounded {ratePerSec burst : ℚ} (hrate : 0 < ratePerSec) (hburst : 0 ≤ burst) (start : ℚ)
    {turns : List Turn} (hmono : turns.Pairwise (·.now ≤ ·.now)) :
    let limiter := TokenBucketLimiter.new ratePerSec burst start
    (∀ pre, pre <+: turns →
      0 ≤ (limiter.after pre).bucket.tokens ∧ (limiter.after pre).bucket.tokens ≤ burst) ∧
    ∀ s t, s ≤ t → (((limiter.grants turns).filter fun turn => s ≤ turn.now ∧ turn.now ≤ t).length : ℚ) ≤
      burst + ratePerSec * (t - s) := by
  intro limiter
  -- only the first turn sees when the limiter was made
  have hbound : ∀ turns : List Turn, turns.Pairwise (·.now ≤ ·.now) →
      (0 ≤ (limiter.after turns).bucket.tokens ∧ (limiter.after turns).bucket.tokens ≤ burst) ∧
      ∀ s t, s ≤ t → (((limiter.grants turns).filter fun turn => s ≤ turn.now ∧ turn.now ≤ t).length : ℚ) ≤
        burst + ratePerSec * (t - s) := by
    intro turns hmono
    cases turns with
    | nil => exact acquire_bounded_of_start hrate hburst .nil nofun
    | cons first turns =>
      have hstart : ∀ turn ∈ first :: turns, first.now ≤ turn.now :=
        List.forall_mem_cons.2 ⟨le_rfl, fun turn => List.rel_of_pairwise_cons hmono⟩
      have hfirst := acquire_bounded_of_start hrate hburst hmono hstart
      have hiterate :
          limiter.iterate first.now = (TokenBucketLimiter.new ratePerSec burst first.now).iterate first.now :=
        TokenBucketLimiter.new_iterate hrate.le start first.now
      have hafter : limiter.after (first :: turns) =
          (TokenBucketLimiter.new ratePerSec burst first.now).after (first :: turns) := by
        simp only [TokenBucketLimiter.after, List.foldl_cons, hiterate]
      have hgrants : limiter.grants (first :: turns) =
          (TokenBucketLimiter.new ratePerSec burst first.now).grants (first :: turns) := by
        simp only [TokenBucketLimiter.grants, hiterate]
      rw [hafter, hgrants]
      exact hfirst
  exact ⟨fun pre hpre => (hbound pre (hmono.sublist hpre.sublist)).1, (hbound turns hmono).2⟩

/-- Two tasks at a limiter of one token a second and a burst of two: they are granted at most three in any second. -/
theorem acquire_bounded_example :
    let turns : List Turn := [⟨0, 0⟩, ⟨1, 0⟩, ⟨0, 1 / 2⟩, ⟨1, 1⟩, ⟨0, 1⟩]
    (((TokenBucketLimiter.new 1 2 0).grants turns).filter fun turn => 0 ≤ turn.now ∧ turn.now ≤ 1).length = 3 ∧
    ∀ s, (((TokenBucketLimiter.new 1 2 0).grants turns).filter fun turn =>
      s ≤ turn.now ∧ turn.now ≤ s + 1).length ≤ 3 := by
  intro turns
  refine ⟨by decide +kernel, fun s => ?_⟩
  have h := (@acquire_bounded 1 2 one_pos zero_le_two 0 turns (by decide +kernel)).2 s (s + 1) (by linarith)
  have hthree : (2 : ℚ) + 1 * (s + 1 - s) = (3 : ℕ) := by
    rw [add_sub_cancel_left]
    norm_num
  rw [hthree] at h
  exact Nat.cast_le.1 h

/-! ## Leaving the loop -/

/-- A bucket that holds no token grants none. -/
theorem iterate_of_capacity_lt {l : TokenBucketLimiter} (h : l.bucket.capacity < 1) (now : ℚ) :
    (l.iterate now).1 = some ((1 - l.refilled now) / l.bucket.refillPerSec) :=
  (TokenBucketLimiter.iterate_of_lt ((min_le_right _ _).trans_lt h)).1

/-- So a caller never leaves, however often it tries. -/
theorem not_leavesWithin {l : TokenBucketLimiter} (h : l.bucket.capacity < 1) (n : ℕ) (now : ℚ) :
    ¬l.LeavesWithin n now := by
  induction n generalizing l now with
  | zero => exact id
  | succ n ih =>
    intro hleaves
    have hagain := hleaves _ (iterate_of_capacity_lt h now) _ le_rfl
    exact ih ((TokenBucketLimiter.iterate_capacity l now).trans_lt h) _ hagain

/-- After the sleep a bucket that can hold a token grants one. -/
theorem leavesWithin_two {l : TokenBucketLimiter} (hcap : 1 ≤ l.bucket.capacity) (hrate : 0 < l.bucket.refillPerSec)
    (now : ℚ) : l.LeavesWithin 2 now := by
  intro wait hwait now' hnow'
  rcases le_or_gt 1 (l.refilled now) with hle | hlt
  · rw [(TokenBucketLimiter.iterate_of_le hle).1] at hwait
    cases hwait
  · obtain ⟨hsome, htokens⟩ := TokenBucketLimiter.iterate_of_lt hlt
    have hwait : (1 - l.refilled now) / l.bucket.refillPerSec = wait := Option.some.inj (hsome.symm.trans hwait)
    have hslept : wait ≤ durationSince now' now := (le_sub_iff_add_le'.2 hnow').trans (le_max_right 0 _)
    have hflow : 1 - l.refilled now ≤ durationSince now' now * l.bucket.refillPerSec := by
      rw [← div_le_iff₀ hrate, hwait]
      exact hslept
    have hfull : 1 ≤ (l.iterate now).2.refilled now' := by
      refine le_min ?_ (hcap.trans_eq (TokenBucketLimiter.iterate_capacity l now).symm)
      rw [htokens, TokenBucketLimiter.iterate_refillPerSec]
      show 1 ≤ l.refilled now + durationSince now' now * l.bucket.refillPerSec
      linarith
    intro wait' hwait'
    rw [(TokenBucketLimiter.iterate_of_le hfull).1] at hwait'
    cases hwait'

/-- **When `acquire` ends.** With the limiter of the command line, whose burst is its rate, a lone caller that sleeps as
long as it is told leaves the loop in two iterations, from any state that turns have led to, exactly when the rate is at
least one token a second. With a lower rate it never leaves. -/
theorem acquire_leaves_iff {ratePerSec : ℚ} (hrate : 0 < ratePerSec) (start : ℚ) (turns : List Turn) (now : ℚ) :
    let limiter := (TokenBucketLimiter.new ratePerSec ratePerSec start).after turns
    (limiter.LeavesWithin 2 now ↔ 1 ≤ ratePerSec) ∧ (ratePerSec < 1 → ∀ n, ¬limiter.LeavesWithin n now) := by
  intro limiter
  have hcap : limiter.bucket.capacity = ratePerSec := TokenBucketLimiter.after_capacity _ turns
  have hrefill : limiter.bucket.refillPerSec = ratePerSec := TokenBucketLimiter.after_refillPerSec _ turns
  have hnever : ratePerSec < 1 → ∀ n, ¬limiter.LeavesWithin n now :=
    fun hlt n => not_leavesWithin (hcap.trans_lt hlt) n now
  refine ⟨⟨fun h => ?_, fun h => ?_⟩, hnever⟩
  · by_contra hlt
    exact hnever (not_le.1 hlt) 2 h
  · exact leavesWithin_two (h.trans_eq hcap.symm) (hrate.trans_eq hrefill.symm) now

/-- At ten tokens a second a caller that finds the bucket empty leaves in two iterations. -/
theorem acquire_leaves_iff_example :
    ((TokenBucketLimiter.new 10 10 0).after (List.replicate 10 ⟨0, 0⟩)).LeavesWithin 2 0 :=
  ((@acquire_leaves_iff 10 (by decide) 0 (List.replicate 10 ⟨0, 0⟩) 0).1).2 (by decide)

/-- At one token in two seconds the bucket holds half a token at most: the first caller sleeps one second, again and
again. -/
theorem half_rate_never_leaves :
    (0 : ℚ) < 1 / 2 ∧ ((TokenBucketLimiter.new (1 / 2) (1 / 2) 0).iterate 0).1 = some 1 ∧
    ¬(TokenBucketLimiter.new (1 / 2) (1 / 2) 0).LeavesWithin 2 0 := by
  refine ⟨by decide +kernel, by decide +kernel, not_leavesWithin ?_ 2 0⟩
  show (1 / 2 : ℚ) < 1
  decide +kernel

/-! ## The limiter of the pool -/

/-- A poll of a bucket is an iteration at the time that has passed since the last one. -/
theorem iterate_add {l : TokenBucketLimiter} {elapsed : ℚ} (helapsed : 0 ≤ elapsed) {got : Bool} {bucket : TokenBucket}
    (hpoll : l.bucket.poll elapsed = (got, bucket)) :
    (l.iterate (l.lastRefill + elapsed)).2 = ⟨bucket, l.lastRefill + elapsed⟩ ∧
      ((l.iterate (l.lastRefill + elapsed)).1 = none ↔ got = true) := by
  have hduration : durationSince (l.lastRefill + elapsed) l.lastRefill = elapsed := by
    rw [durationSince, add_sub_cancel_left, max_eq_right helapsed]
  unfold TokenBucketLimiter.iterate
  rw [hduration, hpoll]
  cases got with
  | false => exact ⟨rfl, by simp⟩
  | true => exact ⟨rfl, by simp⟩

/-- Turns in the order of time that lead a limiter to a bucket, with some of them granted. -/
structure TokenBucketLimiter.Turns (l : TokenBucketLimiter) (bucket : TokenBucket) (granted : ℕ) (turns : List Turn) :
    Prop where
  mono : turns.Pairwise (·.now ≤ ·.now)
  start : ∀ turn ∈ turns, l.lastRefill ≤ turn.now
  last : ∀ turn ∈ turns, turn.now ≤ (l.after turns).lastRefill
  le_last : l.lastRefill ≤ (l.after turns).lastRefill
  bucket : (l.after turns).bucket = bucket
  granted : (l.grants turns).length = granted

/-- One more turn. -/
theorem TokenBucketLimiter.Turns.snoc {l : TokenBucketLimiter} {b b' : TokenBucket} {granted : ℕ} {turns : List Turn}
    (h : l.Turns b granted turns) {elapsed : ℚ} (helapsed : 0 ≤ elapsed) {got : Bool}
    (hpoll : b.poll elapsed = (got, b')) (task : ℕ) :
    l.Turns b' (if got then granted + 1 else granted) (turns ++ [⟨task, (l.after turns).lastRefill + elapsed⟩]) := by
  have hnow : (l.after turns).lastRefill ≤ (l.after turns).lastRefill + elapsed := le_add_of_nonneg_right helapsed
  rw [← h.bucket] at hpoll
  obtain ⟨hafter, hgot⟩ := iterate_add helapsed hpoll
  have hlast : (l.after (turns ++ [⟨task, (l.after turns).lastRefill + elapsed⟩])) =
      ⟨b', (l.after turns).lastRefill + elapsed⟩ := (after_snoc _ _ _).trans hafter
  refine ⟨?_, ?_, ?_, ?_, ?_, ?_⟩
  · rw [List.pairwise_append]
    refine ⟨h.mono, List.pairwise_singleton _ _, fun turn hturn next hnext => ?_⟩
    rw [List.mem_singleton.1 hnext]
    exact (h.last turn hturn).trans hnow
  · exact List.forall_mem_append.2 ⟨h.start, List.forall_mem_singleton.2 (h.le_last.trans hnow)⟩
  · rw [hlast]
    exact List.forall_mem_append.2
      ⟨fun turn hturn => (h.last turn hturn).trans hnow, List.forall_mem_singleton.2 le_rfl⟩
  · rw [hlast]
    exact h.le_last.trans hnow
  · rw [hlast]
  · rw [grants_snoc, List.length_append, h.granted]
    cases got with
    | false => simp [hgot]
    | true => simp [hgot]

/-- The polls of a pool are turns at its limiter, and the tokens it has acquired are those granted. -/
theorem Pool.exists_turns {rpc : Rpc} {ratePerSec burst : ℚ} {slots : List UInt64} {maxConcurrency : ℕ} {s : Pool}
    (h : Transition.Reachable (fetchBlockRange rpc (.new ratePerSec burst) slots maxConcurrency) s) :
    ∃ turns, (TokenBucketLimiter.new ratePerSec burst 0).Turns s.limiter s.acquired turns := by
  refine h.invariant
    (I := fun s => ∃ turns, (TokenBucketLimiter.new ratePerSec burst 0).Turns s.limiter s.acquired turns)
    ?_ ?_
  · rintro s rfl
    exact ⟨[], .nil, nofun, nofun, le_rfl, rfl, rfl⟩
  · rintro s s' ⟨turns, hturns⟩ hs
    cases hs with
    | @denied pre post slot elapsed limiter _ _ htime hpoll => exact ⟨_, hturns.snoc htime hpoll slot.toNat⟩
    | @granted pre post slot elapsed limiter _ _ htime hpoll => exact ⟨_, hturns.snoc htime hpoll slot.toNat⟩
    | answer => exact ⟨turns, hturns⟩
    | retry => exact ⟨turns, hturns⟩
    | next => exact ⟨turns, hturns⟩
    | handedOn =>
      rw [Pool.refill_eq]
      exact ⟨turns, hturns⟩
    | finish => exact ⟨turns, hturns⟩

/-- The tokens of a pool stay between zero and the burst, in every reachable state. -/
theorem Pool.tokens_mem {rpc : Rpc} {ratePerSec burst : ℚ} (hrate : 0 < ratePerSec) (hburst : 0 ≤ burst)
    {slots : List UInt64} {maxConcurrency : ℕ} {s : Pool}
    (h : Transition.Reachable (fetchBlockRange rpc (.new ratePerSec burst) slots maxConcurrency) s) :
    0 ≤ s.limiter.tokens ∧ s.limiter.tokens ≤ burst := by
  obtain ⟨turns, hturns⟩ := Pool.exists_turns h
  have hstart : ∀ turn ∈ turns, 0 ≤ turn.now := hturns.start
  have htokens := (acquire_bounded_of_start hrate hburst hturns.mono hstart).1
  rwa [hturns.bucket] at htokens

end Tenso.Ingest
