import Mathlib.Algebra.Group.Nat.Defs
import Mathlib.Data.List.Basic
import Mathlib.Data.List.Pairwise

/-! A limit on attempts per window, with a block after the limit is hit.

A caller keeps three numbers between its requests and hands them in with the next
one. The window is not sliding: it starts at the request that found the previous
window over, so a span shorter than a window can touch two windows.
-/

set_option autoImplicit false

namespace Soshal.Network.RateLimit

structure RateLimitInput where
  attempts : UInt32
  firstAttempt : UInt64
  now : UInt64
  maxAttempts : UInt32
  windowMs : UInt64
  blockedUntil : Option UInt64
  deriving DecidableEq

structure RateLimitOutput where
  allowed : Bool
  remainingAttempts : UInt32
  retryAfter : Option UInt64
  newAttempts : UInt32
  newFirstAttempt : UInt64
  newBlockedUntil : Option UInt64
  deriving DecidableEq

def saturatingSub (a b : UInt64) : UInt64 := .ofNat (a.toNat - b.toNat)
def saturatingSub32 (a b : UInt32) : UInt32 := .ofNat (a.toNat - b.toNat)
def saturatingAdd (a b : UInt64) : UInt64 := .ofNat (min (a.toNat + b.toNat) (2 ^ 64 - 1))
def saturatingAdd32 (a b : UInt32) : UInt32 := .ofNat (min (a.toNat + b.toNat) (2 ^ 32 - 1))
def saturatingPow (a : UInt64) (exp : UInt32) : UInt64 := .ofNat (min (a.toNat ^ exp.toNat) (2 ^ 64 - 1))

def plainSub (a b : UInt64) : Option UInt64 := if b.toNat ≤ a.toNat then some (a - b) else none

def plainMul (a b : UInt64) : Option UInt64 := if a.toNat * b.toNat < 2 ^ 64 then some (a * b) else none

def RateLimitInput.blocking (input : RateLimitInput) : Option UInt64 := input.blockedUntil.filter (input.now < ·)

def RateLimitInput.expired (input : RateLimitInput) : Bool :=
  decide (input.windowMs ≤ saturatingSub input.now input.firstAttempt)

def backoffSecs (attempts : UInt32) : UInt64 := min (saturatingPow 2 (min attempts 30)) 3600

/-- The answer, unless a plain sum, difference or product overflows. -/
def rateLimitCheck (input : RateLimitInput) : Option RateLimitOutput :=
  match input.blocking with
  | some blockedUntil =>
    (plainSub blockedUntil input.now).map fun left =>
      { allowed := false
        remainingAttempts := 0
        retryAfter := some left
        newAttempts := input.attempts
        newFirstAttempt := input.firstAttempt
        newBlockedUntil := input.blockedUntil }
  | none =>
    if input.expired then
      some
        { allowed := true
          remainingAttempts := saturatingSub32 input.maxAttempts 1
          retryAfter := none
          newAttempts := 1
          newFirstAttempt := input.now
          newBlockedUntil := none }
    else if input.maxAttempts ≤ input.attempts then
      (plainMul (backoffSecs input.attempts) 1000).map fun backoffMs =>
        { allowed := false
          remainingAttempts := 0
          retryAfter := some backoffMs
          newAttempts := input.attempts
          newFirstAttempt := input.firstAttempt
          newBlockedUntil := some (saturatingAdd input.now backoffMs) }
    else
      some
        { allowed := true
          remainingAttempts := saturatingSub32 input.maxAttempts (saturatingAdd32 input.attempts 1)
          retryAfter := none
          newAttempts := saturatingAdd32 input.attempts 1
          newFirstAttempt := input.firstAttempt
          newBlockedUntil := none }

theorem toNat_saturatingSub (a b : UInt64) : (saturatingSub a b).toNat = a.toNat - b.toNat :=
  UInt64.toNat_ofNat_of_lt' (Nat.lt_of_le_of_lt (Nat.sub_le _ _) a.toNat_lt)

theorem toNat_saturatingAdd32_one {a b : UInt32} (below : a < b) : (saturatingAdd32 a 1).toNat = a.toNat + 1 := by
  have bound := b.toNat_lt
  have less : a.toNat < b.toNat := below
  have exact : min (a.toNat + (1 : UInt32).toNat) (2 ^ 32 - 1) = a.toNat + 1 := by
    rw [UInt32.toNat_one]
    omega
  rw [saturatingAdd32, exact]
  exact UInt32.toNat_ofNat_of_lt' (Nat.lt_of_le_of_lt less bound)

theorem backoffSecs_le (attempts : UInt32) : (backoffSecs attempts).toNat ≤ 3600 := by
  unfold backoffSecs
  exact UInt64.le_iff_toNat_le.mp Std.min_le_right

theorem blocking_eq_some {input : RateLimitInput} {blocked : UInt64} :
    input.blocking = some blocked ↔ input.blockedUntil = some blocked ∧ input.now < blocked := by
  simp [RateLimitInput.blocking, Option.filter_eq_some_iff]

theorem rateLimitCheck_isSome (input : RateLimitInput) : (rateLimitCheck input).isSome := by
  unfold rateLimitCheck
  cases blocked : input.blocking with
  | some blockedUntil =>
    have later : input.now.toNat ≤ blockedUntil.toNat := Nat.le_of_lt (blocking_eq_some.mp blocked).2
    simp [plainSub, later]
  | none =>
    dsimp only
    split
    · rfl
    · split
      · -- The backoff is capped at an hour, so its milliseconds are far below the bound.
        have fits : (backoffSecs input.attempts).toNat * (1000 : UInt64).toNat < 2 ^ 64 :=
          Nat.lt_of_le_of_lt (Nat.mul_le_mul_right _ (backoffSecs_le _)) (by decide)
        rw [plainMul, if_pos fits]
        rfl
      · rfl

structure Config where
  maxAttempts : UInt32
  windowMs : UInt64

/-- What the caller keeps between two requests. -/
structure State where
  attempts : UInt32
  firstAttempt : UInt64
  blockedUntil : Option UInt64

def State.initial (firstAttempt : UInt64) : State := ⟨0, firstAttempt, none⟩

def Config.input (c : Config) (s : State) (now : UInt64) : RateLimitInput :=
  ⟨s.attempts, s.firstAttempt, now, c.maxAttempts, c.windowMs, s.blockedUntil⟩

def RateLimitOutput.state (out : RateLimitOutput) : State :=
  ⟨out.newAttempts, out.newFirstAttempt, out.newBlockedUntil⟩

structure Request where
  input : RateLimitInput
  output : RateLimitOutput

def Request.allowed (r : Request) : Bool := r.output.allowed

@[simp] theorem Request.allowed_mk (input : RateLimitInput) (output : RateLimitOutput) :
    Request.allowed ⟨input, output⟩ = output.allowed := rfl

def Request.resets (r : Request) : Bool := r.input.blocking.isNone && r.input.expired

/-- Requests at the given times, each with the state that the one before it left. -/
def requests (c : Config) : State → List UInt64 → Option (List Request)
  | _, [] => some []
  | s, now :: later => do
    let out ← rateLimitCheck (c.input s now)
    let rest ← requests c out.state later
    return ⟨c.input s now, out⟩ :: rest

/-- What one request can do: whether it resets, whether it is allowed and what it leaves. -/
inductive Answer (c : Config) (s : State) (now : UInt64) : Bool → Bool → State → Prop where
  | blocked {blockedUntil : UInt64} : s.blockedUntil = some blockedUntil → now < blockedUntil →
      Answer c s now false false s
  | reset : (∀ b, s.blockedUntil = some b → b ≤ now) →
      c.windowMs.toNat ≤ now.toNat - s.firstAttempt.toNat → Answer c s now true true ⟨1, now, none⟩
  | full (blockedUntil : UInt64) : (∀ b, s.blockedUntil = some b → b ≤ now) → c.maxAttempts ≤ s.attempts →
      Answer c s now false false ⟨s.attempts, s.firstAttempt, some blockedUntil⟩
  | counted : (∀ b, s.blockedUntil = some b → b ≤ now) → s.attempts < c.maxAttempts →
      Answer c s now false true ⟨saturatingAdd32 s.attempts 1, s.firstAttempt, none⟩

theorem answer_of_check {c : Config} {s : State} {now : UInt64} {out : RateLimitOutput}
    (checked : rateLimitCheck (c.input s now) = some out) :
    Answer c s now (Request.resets ⟨c.input s now, out⟩) out.allowed out.state := by
  unfold rateLimitCheck at checked
  unfold Request.resets
  cases blocked : (c.input s now).blocking with
  | some blockedUntil =>
    simp only [blocked, Option.map_eq_some_iff] at checked
    obtain ⟨left, -, rfl⟩ := checked
    obtain ⟨set, early⟩ := blocking_eq_some.mp blocked
    exact .blocked set early
  | none =>
    have free : ∀ b, s.blockedUntil = some b → b ≤ now := by
      intro b set
      refine UInt64.not_lt.mp fun early => ?_
      rw [blocking_eq_some.mpr ⟨set, early⟩] at blocked
      cases blocked
    simp only [blocked] at checked
    split at checked
    case isTrue expired =>
      cases checked
      rw [expired]
      refine .reset free ?_
      -- The difference saturates: a clock behind the first attempt does not end the window.
      have past := of_decide_eq_true expired
      rwa [UInt64.le_iff_toNat_le, toNat_saturatingSub] at past
    case isFalse current =>
      rw [Bool.eq_false_iff.mpr current]
      split at checked
      case isTrue enough =>
        simp only [Option.map_eq_some_iff] at checked
        obtain ⟨backoffMs, -, rfl⟩ := checked
        exact .full _ free enough
      case isFalse room =>
        cases checked
        exact .counted free (UInt32.not_le.mp room)

theorem requests_cons {c : Config} {s : State} {now : UInt64} {later : List UInt64} {all : List Request}
    (done : requests c s (now :: later) = some all) :
    ∃ out rest, rateLimitCheck (c.input s now) = some out ∧ requests c out.state later = some rest ∧
      all = ⟨c.input s now, out⟩ :: rest := by
  simp only [requests, Option.bind_eq_bind, Option.bind_eq_some_iff, Option.pure_def, Option.some.injEq] at done
  obtain ⟨out, checked, rest, after, same⟩ := done
  exact ⟨out, rest, checked, after, same.symm⟩

theorem requests_times {c : Config} {s : State} {times : List UInt64} {all : List Request}
    (done : requests c s times = some all) : all.map (·.input.now) = times := by
  induction times generalizing s all with
  | nil =>
    cases done
    rfl
  | cons now later ih =>
    obtain ⟨out, rest, -, continued, rfl⟩ := requests_cons done
    exact congrArg (now :: ·) (ih continued)

theorem requests_isSome (c : Config) (s : State) (times : List UInt64) : ∃ all, requests c s times = some all := by
  induction times generalizing s with
  | nil => exact ⟨[], rfl⟩
  | cons now later ih =>
    obtain ⟨out, checked⟩ := Option.isSome_iff_exists.mp (rateLimitCheck_isSome (c.input s now))
    obtain ⟨rest, after⟩ := ih out.state
    exact ⟨⟨c.input s now, out⟩ :: rest, by simp [requests, checked, after]⟩

/-! ## Counting

The counter of a state never falls behind the requests that its window allowed, and
it never passes the limit.
-/

section Counting

variable {c : Config} {s next : State} {now : UInt64} {resets allowed : Bool}

theorem Answer.within (answer : Answer c s now resets allowed next) (some_allowed : 1 ≤ c.maxAttempts)
    (within : s.attempts ≤ c.maxAttempts) : next.attempts ≤ c.maxAttempts := by
  cases answer with
  | blocked => exact within
  | reset => exact some_allowed
  | full => exact within
  | counted free room =>
    rw [UInt32.le_iff_toNat_le, toNat_saturatingAdd32_one room]
    exact room

theorem Answer.counts (answer : Answer c s now false allowed next) :
    s.attempts.toNat + allowed.toNat ≤ next.attempts.toNat := by
  cases answer with
  | blocked => exact Nat.le_refl _
  | full => exact Nat.le_refl _
  | counted free room => exact Nat.le_of_eq (toNat_saturatingAdd32_one room).symm

theorem Answer.counts_self (answer : Answer c s now resets allowed next) : allowed.toNat ≤ next.attempts.toNat := by
  cases resets with
  | false => exact Nat.le_of_add_left_le answer.counts
  | true =>
    cases answer with
    | reset => exact Nat.le_refl _

theorem Answer.current (answer : Answer c s now resets allowed next) (window : 1 ≤ c.windowMs)
    (early : now.toNat < s.firstAttempt.toNat + c.windowMs.toNat) :
    resets = false ∧ next.firstAttempt = s.firstAttempt := by
  cases answer with
  | blocked => exact ⟨rfl, rfl⟩
  | full => exact ⟨rfl, rfl⟩
  | counted => exact ⟨rfl, rfl⟩
  | reset free past =>
    have positive : 1 ≤ c.windowMs.toNat := window
    omega

theorem Answer.begins (answer : Answer c s now true allowed next) : next.firstAttempt = now := by
  cases answer with
  | reset => rfl

theorem Answer.refused (answer : Answer c s now resets allowed next) {blockedUntil : UInt64}
    (set : s.blockedUntil = some blockedUntil) (early : now < blockedUntil) : allowed = false ∧ next = s := by
  cases answer with
  | blocked => exact ⟨rfl, rfl⟩
  | reset free => exact absurd (free _ set) (UInt64.not_le.mpr early)
  | full _ free => exact absurd (free _ set) (UInt64.not_le.mpr early)
  | counted free => exact absurd (free _ set) (UInt64.not_le.mpr early)

theorem countP_cons_toNat (p : Request → Bool) (r : Request) (rest : List Request) :
    (r :: rest).countP p = (p r).toNat + rest.countP p := by
  rw [List.countP_cons, Nat.add_comm]
  cases p r <;> rfl

section

variable {times : List UInt64} (some_allowed : 1 ≤ c.maxAttempts) (within : s.attempts ≤ c.maxAttempts)
include some_allowed within

theorem count_current {span after : List Request} (run : requests c s times = some (span ++ after))
    (current : ∀ r ∈ span, r.resets = false) :
    s.attempts.toNat + span.countP Request.allowed ≤ c.maxAttempts.toNat := by
  induction span generalizing s times with
  | nil => exact within
  | cons r rest ih =>
    cases times with
    | nil => cases run
    | cons now later =>
      obtain ⟨out, tail, checked, continued, same⟩ := requests_cons run
      obtain ⟨rfl, rfl⟩ := List.cons.inj same
      have answer := answer_of_check checked
      rw [current _ List.mem_cons_self] at answer
      have counted := answer.counts
      have ahead := ih (answer.within some_allowed within) continued fun r member =>
        current r (List.mem_cons_of_mem _ member)
      rw [countP_cons_toNat, Request.allowed_mk]
      omega

theorem count_window {span after : List Request} (run : requests c s times = some (span ++ after))
    (current : ∀ r ∈ span.tail, r.resets = false) : span.countP Request.allowed ≤ c.maxAttempts.toNat := by
  cases span with
  | nil => exact Nat.zero_le _
  | cons r rest =>
    cases times with
    | nil => cases run
    | cons now later =>
      obtain ⟨out, tail, checked, continued, same⟩ := requests_cons run
      obtain ⟨rfl, rfl⟩ := List.cons.inj same
      have answer := answer_of_check checked
      -- The first request of the span may reset, and then counts itself.
      have counted := answer.counts_self
      have ahead := count_current some_allowed (answer.within some_allowed within) continued current
      rw [countP_cons_toNat, Request.allowed_mk]
      omega

theorem requests_drop {before rest : List Request} (run : requests c s times = some (before ++ rest)) :
    ∃ s' times', s'.attempts ≤ c.maxAttempts ∧ requests c s' times' = some rest := by
  induction before generalizing s times with
  | nil => exact ⟨s, times, within, run⟩
  | cons r before ih =>
    cases times with
    | nil => cases run
    | cons now later =>
      obtain ⟨out, tail, checked, continued, same⟩ := requests_cons run
      obtain ⟨rfl, rfl⟩ := List.cons.inj same
      exact ih ((answer_of_check checked).within some_allowed within) continued

end

/-- Allowed, and not before `first` nor after `last`. -/
def Request.allowedIn (first last : Nat) (r : Request) : Bool :=
  r.allowed && decide (first ≤ r.input.now.toNat ∧ r.input.now.toNat ≤ last)

theorem allowedIn_toNat_le {first last : Nat} (input : RateLimitInput) (output : RateLimitOutput) :
    (Request.allowedIn first last ⟨input, output⟩).toNat ≤ output.allowed.toNat := by
  unfold Request.allowedIn
  rw [Request.allowed_mk]
  cases output.allowed with
  | false => exact Nat.le_refl _
  | true => exact Bool.toNat_le _

theorem count_late {times : List UInt64} {all : List Request} (first : Nat) {last : Nat}
    (run : requests c s times = some all) (late : ∀ t ∈ times, last < t.toNat) :
    all.countP (Request.allowedIn first last) = 0 := by
  induction times generalizing s all with
  | nil =>
    cases run
    rfl
  | cons now later ih =>
    obtain ⟨out, rest, -, continued, rfl⟩ := requests_cons run
    have after : last < now.toNat := late now List.mem_cons_self
    have outside : Request.allowedIn first last ⟨c.input s now, out⟩ = false := by
      have not_in : ¬ (first ≤ now.toNat ∧ now.toNat ≤ last) := by omega
      rw [Request.allowedIn]
      exact Bool.and_eq_false_imp.mpr fun _ => decide_eq_false not_in
    rw [countP_cons_toNat, outside, ih continued fun t member => late t (List.mem_cons_of_mem _ member)]
    rfl

/-- As long as the window of the state covers the rest of the span, no second reset falls into it. -/
theorem count_covered {times : List UInt64} {all : List Request} (first : Nat) {last : Nat}
    (window : 1 ≤ c.windowMs) (some_allowed : 1 ≤ c.maxAttempts) (within : s.attempts ≤ c.maxAttempts)
    (sorted : times.Pairwise (· ≤ ·)) (run : requests c s times = some all)
    (covered : last < s.firstAttempt.toNat + c.windowMs.toNat) :
    s.attempts.toNat + all.countP (Request.allowedIn first last) ≤ c.maxAttempts.toNat := by
  induction times generalizing s all with
  | nil =>
    cases run
    exact within
  | cons now later ih =>
    obtain ⟨after, sorted'⟩ := List.pairwise_cons.mp sorted
    obtain inside | outside := Nat.lt_or_ge last now.toNat
    · have late : ∀ t ∈ now :: later, last < t.toNat := by
        intro t member
        obtain rfl | member := List.mem_cons.mp member
        · exact inside
        · exact Nat.lt_of_lt_of_le inside (UInt64.le_iff_toNat_le.mp (after t member))
      rw [count_late first run late]
      exact within
    · obtain ⟨out, rest, checked, continued, rfl⟩ := requests_cons run
      have answer := answer_of_check checked
      have head := @allowedIn_toNat_le first last (c.input s now) out
      obtain ⟨current, same⟩ := answer.current window (Nat.lt_of_le_of_lt outside covered)
      rw [current] at answer
      have counted := answer.counts
      have ahead := ih (answer.within some_allowed within) sorted' continued (by rwa [same])
      rw [countP_cons_toNat]
      omega

section

variable {times : List UInt64} {all : List Request} {first last : Nat} (window : 1 ≤ c.windowMs)
  (some_allowed : 1 ≤ c.maxAttempts) (within : s.attempts ≤ c.maxAttempts) (sorted : times.Pairwise (· ≤ ·))
  (run : requests c s times = some all) (short : last < first + c.windowMs.toNat)
include window some_allowed within sorted run short

theorem count_from (started : ∀ t ∈ times, first ≤ t.toNat) :
    s.attempts.toNat + all.countP (Request.allowedIn first last) ≤ 2 * c.maxAttempts.toNat := by
  induction times generalizing s all with
  | nil =>
    cases run
    exact Nat.le_trans within (Nat.le_mul_of_pos_left _ Nat.two_pos)
  | cons now later ih =>
    obtain ⟨after, sorted'⟩ := List.pairwise_cons.mp sorted
    obtain ⟨out, rest, checked, continued, rfl⟩ := requests_cons run
    have answer := answer_of_check checked
    have within' := answer.within some_allowed within
    have head := @allowedIn_toNat_le first last (c.input s now) out
    rw [countP_cons_toNat]
    cases fresh : Request.resets ⟨c.input s now, out⟩ with
    | false =>
      rw [fresh] at answer
      have counted := answer.counts
      have ahead := ih within' sorted' continued fun t member => started t (List.mem_cons_of_mem _ member)
      omega
    | true =>
      -- The new window starts inside the span and outlasts it.
      rw [fresh] at answer
      have begins := answer.begins
      have begun : first ≤ now.toNat := started now List.mem_cons_self
      have covered : last < out.state.firstAttempt.toNat + c.windowMs.toNat := by
        rw [begins]
        omega
      have ahead := count_covered first window some_allowed within' sorted' continued covered
      have counted := answer.counts_self
      have bounded : s.attempts.toNat ≤ c.maxAttempts.toNat := within
      omega

theorem count_span : all.countP (Request.allowedIn first last) ≤ 2 * c.maxAttempts.toNat := by
  induction times generalizing s all with
  | nil =>
    cases run
    exact Nat.zero_le _
  | cons now later ih =>
    obtain before | begun := Nat.lt_or_ge now.toNat first
    · obtain ⟨out, rest, checked, continued, rfl⟩ := requests_cons run
      have outside : Request.allowedIn first last ⟨c.input s now, out⟩ = false := by
        have not_in : ¬ (first ≤ now.toNat ∧ now.toNat ≤ last) := by omega
        rw [Request.allowedIn]
        exact Bool.and_eq_false_imp.mpr fun _ => decide_eq_false not_in
      rw [countP_cons_toNat, outside, Bool.toNat_false, Nat.zero_add]
      exact ih ((answer_of_check checked).within some_allowed within) (List.pairwise_cons.mp sorted).2 continued
    · have started : ∀ t ∈ now :: later, first ≤ t.toNat := by
        intro t member
        obtain rfl | member := List.mem_cons.mp member
        · exact begun
        · exact Nat.le_trans begun (UInt64.le_iff_toNat_le.mp ((List.pairwise_cons.mp sorted).1 t member))
      exact Nat.le_of_add_left_le (count_from window some_allowed within sorted run short started)

end

theorem refused_while_blocked {times : List UInt64} {all : List Request} {blockedUntil : UInt64}
    (sorted : times.Pairwise (· ≤ ·)) (run : requests c s times = some all)
    (blocked : s.blockedUntil = some blockedUntil) :
    ∀ r ∈ all, r.input.now < blockedUntil → r.allowed = false := by
  induction times generalizing s all with
  | nil =>
    cases run
    exact fun r member => absurd member List.not_mem_nil
  | cons now later ih =>
    intro r member early
    obtain ⟨out, rest, checked, continued, rfl⟩ := requests_cons run
    have answer := answer_of_check checked
    obtain ⟨first, sorted'⟩ := List.pairwise_cons.mp sorted
    obtain rfl | member := List.mem_cons.mp member
    · exact (answer.refused blocked early).1
    · have asked : r.input.now ∈ later := by
        rw [← requests_times continued]
        exact List.mem_map_of_mem member
      have unchanged := (answer.refused blocked (UInt64.lt_of_le_of_lt (first _ asked) early)).2
      exact ih sorted' continued (by rwa [unchanged]) r member early

theorem blocks_hold {times : List UInt64} {all : List Request} (sorted : times.Pairwise (· ≤ ·))
    (run : requests c s times = some all) :
    all.Pairwise fun earlier later => ∀ b, earlier.output.newBlockedUntil = some b → later.input.now < b →
      later.allowed = false := by
  induction times generalizing s all with
  | nil =>
    cases run
    exact List.Pairwise.nil
  | cons now later ih =>
    obtain ⟨out, rest, checked, continued, rfl⟩ := requests_cons run
    have sorted' := (List.pairwise_cons.mp sorted).2
    refine List.pairwise_cons.mpr ⟨fun r member b set => ?_, ih sorted' continued⟩
    exact refused_while_blocked sorted' continued set r member

theorem refused_before_block {times : List UInt64} {all : List Request} (run : requests c s times = some all) :
    ∀ r ∈ all, ∀ b, r.input.blockedUntil = some b → r.input.now < b → r.allowed = false := by
  induction times generalizing s all with
  | nil =>
    cases run
    exact fun r member => absurd member List.not_mem_nil
  | cons now later ih =>
    obtain ⟨out, rest, checked, continued, rfl⟩ := requests_cons run
    intro r member b set early
    obtain rfl | member := List.mem_cons.mp member
    · exact ((answer_of_check checked).refused set early).1
    · exact ih continued r member b set early

end Counting

/-- No input overflows, and in a run from the initial state: between two resets at most the limit is
allowed, in a span shorter than the window at most twice the limit, and nothing while a block stands. -/
theorem rate_limit_runs (c : Config) (firstAttempt : UInt64) (times : List UInt64) (sorted : times.Pairwise (· ≤ ·))
    (window : 1 ≤ c.windowMs) (some_allowed : 1 ≤ c.maxAttempts) :
    (∀ input, (rateLimitCheck input).isSome) ∧
    ∃ all, requests c (State.initial firstAttempt) times = some all ∧
      (∀ before span after, all = before ++ span ++ after → (∀ r ∈ span.tail, r.resets = false) →
        span.countP Request.allowed ≤ c.maxAttempts.toNat) ∧
      (∀ first last : Nat, last < first + c.windowMs.toNat →
        all.countP (Request.allowedIn first last) ≤ 2 * c.maxAttempts.toNat) ∧
      (∀ r ∈ all, ∀ b, r.input.blockedUntil = some b → r.input.now < b → r.allowed = false) ∧
      all.Pairwise fun earlier later => ∀ b, earlier.output.newBlockedUntil = some b → later.input.now < b →
        later.allowed = false := by
  have within : (State.initial firstAttempt).attempts ≤ c.maxAttempts :=
    UInt32.le_iff_toNat_le.mpr (Nat.zero_le _)
  obtain ⟨all, run⟩ := requests_isSome c (State.initial firstAttempt) times
  refine ⟨rateLimitCheck_isSome, all, run, ?_, ?_, refused_before_block run, blocks_hold sorted run⟩
  · rintro before span after rfl current
    rw [List.append_assoc] at run
    obtain ⟨s, later, within', entered⟩ := requests_drop some_allowed within run
    exact count_window some_allowed within' entered current
  · intro first last short
    exact count_span window some_allowed within sorted run short

/-- Two requests allowed, the third refused and the block still standing at the fourth. -/
theorem rate_limit_runs_small :
    let c : Config := ⟨2, 60000⟩
    (requests c (State.initial 0) [70000, 70001, 70002, 71000]).map (·.map Request.allowed) =
      some [true, true, false, false] ∧
    ∃ all, requests c (State.initial 0) [70000, 70001, 70002, 71000] = some all ∧
      all.countP (Request.allowedIn 70000 129999) ≤ 4 := by
  refine ⟨by decide, ?_⟩
  obtain ⟨-, all, run, -, spans, -⟩ := rate_limit_runs ⟨2, 60000⟩ 0 [70000, 70001, 70002, 71000] (by decide)
    (by decide) (by decide)
  exact ⟨all, run, spans 70000 129999 (by decide)⟩

end Soshal.Network.RateLimit
