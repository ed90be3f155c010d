import Soshal.Common.BlockedHosts
import Soshal.Library.Runs
import Soshal.Library.Table
import Mathlib.Data.Finset.Card
import Mathlib.Data.Finset.Dedup

/-! The driver of address traversal sessions.

The candidates of a peer are given to the session's agent one by one, and only
after that its credentials. What was given is written down at the end, so a
failure in between leaves candidates with the agent that the session does not list.
-/

set_option autoImplicit false

namespace Soshal.Network.Nat

open Library
open Library.Runs (Always Throughout)
open Common (ipText isPrivateIp isPrivateIpStr)

def maxRemoteCandidates : Nat := 32

/-- `lan::is_private_ip`. -/
def isPrivate (addr : IpAddr) : Bool := isPrivateIpStr (ipText addr)

/-- One call of an agent's `add_remote_candidate`: the candidate, whether public ones were allowed, and whether the
agent took it. -/
structure Offer where
  raw : String
  addr : IpAddr
  publicAllowed : Bool
  accepted : Bool

/-- A session, with every candidate its agent was called with. -/
structure Session where
  offered : List Offer
  state : String
  connectedAddr : Option String
  localCandidates : List String
  remoteCandidates : List String
  ufrag : String
  pwd : String

structure Manager where
  sessions : Table String Session
  allowPublicCandidates : Bool

def Manager.new : Manager := ⟨.empty, false⟩

section Driver

-- The address that a candidate string names, or the reason why it names none.
variable (unmarshalCandidate : String → Except String String)

/-- What one command has given to the agent so far. -/
structure Intake where
  added : List String
  offered : List Offer
  errors : List String

def admitted (allowPublic : Bool) (raw : String) : Option IpAddr :=
  match unmarshalCandidate raw with
  | .error _ => none
  | .ok address =>
    (parseWith readIpAddr address.toList).filter fun addr => allowPublic || isPrivate addr

/-- `adds` answers the calls of this command in turn, with an error or with nothing. -/
def takeCandidates (allowPublic : Bool) (remote : List String) (adds : Nat → Option String) :
    Intake → List String → Intake
  | t, [] => t
  | t, raw :: rest =>
    if remote.length + t.added.length ≥ maxRemoteCandidates then t
    else if raw ∈ remote ∨ raw ∈ t.added then takeCandidates allowPublic remote adds t rest
    else
      match unmarshalCandidate raw with
      | .error e =>
        takeCandidates allowPublic remote adds
          { t with errors := t.errors ++ ["bad candidate " ++ raw ++ ": " ++ e] } rest
      | .ok address =>
        match parseWith readIpAddr address.toList with
        | none => takeCandidates allowPublic remote adds t rest
        | some addr =>
          if ¬ allowPublic ∧ ¬ isPrivate addr then takeCandidates allowPublic remote adds t rest
          else
            match adds t.offered.length with
            | some e =>
              takeCandidates allowPublic remote adds
                { t with
                  offered := t.offered ++ [⟨raw, addr, allowPublic, false⟩]
                  errors := t.errors ++ ["add candidate: " ++ e] } rest
            | none =>
              takeCandidates allowPublic remote adds
                { t with
                  added := t.added ++ [raw]
                  offered := t.offered ++ [⟨raw, addr, allowPublic, true⟩] } rest

/-- What the command and its agent bring: the candidates, the answers to them and to the credentials. -/
structure Remote where
  candidates : List String
  adds : Nat → Option String
  credentials : Bool

def Session.intake (session : Session) (allowPublic : Bool) (remote : Remote) : Intake :=
  takeCandidates unmarshalCandidate allowPublic session.remoteCandidates remote.adds ⟨[], [], []⟩ remote.candidates

def Session.addRemote (session : Session) (allowPublic : Bool) (remote : Remote) : Session :=
  let t := session.intake unmarshalCandidate allowPublic remote
  if remote.credentials then
    { session with
      offered := session.offered ++ t.offered
      remoteCandidates := session.remoteCandidates ++ t.added
      state := "checking" }
  else { session with offered := session.offered ++ t.offered }

/-- The first thing that is sent back, which is all the caller waits for. -/
def Manager.addRemoteReply (m : Manager) (pubkey : String) (remote : Remote) : Except String Unit :=
  match m.sessions.find? pubkey with
  | none => .error "no session for pubkey"
  | some session =>
    match (session.intake unmarshalCandidate m.allowPublicCandidates remote).errors with
    | e :: _ => .error e
    | [] => if remote.credentials then .ok () else .error "set remote credentials failed"

/-- A command of the driver, with what the agents answer, or an event that comes from an agent. -/
inductive Command where
  | gather (pubkey : String) (outcome : Except String Session)
  | addRemote (pubkey ufrag pwd : String) (remote : Remote)
  | remove (pubkey : String)
  | creds (pubkey : String)
  | status (selected : String → Option String)
  | setPublicCandidates (allow : Bool)
  | connectionState (pubkey state : String)
  | prune

def Manager.update (m : Manager) (pubkey : String) (f : Session → Session) : Manager :=
  { m with sessions := m.sessions.modify fun k session => if k = pubkey then f session else session }

def failedStates : List String := ["failed", "disconnected", "closed"]

def Manager.step (m : Manager) : Command → Manager
  | .gather pubkey outcome =>
    if pubkey ∈ m.sessions.keys then m
    else
      match outcome with
      | .error _ => m
      | .ok session =>
        -- A new agent has been given nothing.
        { m with sessions := m.sessions.insertIgnore pubkey { session with offered := [], remoteCandidates := [] } }
  | .addRemote pubkey _ _ remote => m.update pubkey (·.addRemote unmarshalCandidate m.allowPublicCandidates remote)
  | .remove pubkey => { m with sessions := m.sessions.delete fun k _ => k = pubkey }
  | .creds _ => m
  | .status selected =>
    { m with
      sessions := m.sessions.modify fun pubkey session =>
        if session.state = "connected" then
          { session with connectedAddr := (selected pubkey).orElse fun _ => session.connectedAddr }
        else session }
  | .setPublicCandidates allow => { m with allowPublicCandidates := allow }
  | .connectionState pubkey state => m.update pubkey fun session => { session with state := state }
  | .prune => { m with sessions := m.sessions.delete fun _ session => session.state ∈ failedStates }

end Driver

/-! ## What one command hands over -/

theorem isPrivate_eq (addr : IpAddr) : isPrivate addr = isPrivateIp addr := Common.isPrivateIpStr_ipText addr

section Intake

variable {unmarshalCandidate : String → Except String String} {allowPublic : Bool} {remote : List String}
  {adds : Nat → Option String}

theorem admitted_error {raw e : String} (bad : unmarshalCandidate raw = .error e) :
    admitted unmarshalCandidate allowPublic raw = none := by rw [admitted, bad]

theorem admitted_unparsed {raw address : String} (read : unmarshalCandidate raw = .ok address)
    (bad : parseWith readIpAddr address.toList = none) : admitted unmarshalCandidate allowPublic raw = none := by
  simp only [admitted, read, bad, Option.filter_none]

theorem admitted_parsed {raw address : String} {addr : IpAddr} (read : unmarshalCandidate raw = .ok address)
    (parsed : parseWith readIpAddr address.toList = some addr) :
    admitted unmarshalCandidate allowPublic raw = if ¬ allowPublic ∧ ¬ isPrivate addr then none else some addr := by
  simp only [admitted, read, parsed, Option.filter_some]
  cases allowPublic <;> cases isPrivate addr <;> rfl

theorem private_of_admitted {raw : String} {addr : IpAddr}
    (passes : admitted unmarshalCandidate false raw = some addr) : isPrivateIp addr = true := by
  rw [← isPrivate_eq]
  cases read : unmarshalCandidate raw with
  | error e => rw [admitted_error read] at passes; cases passes
  | ok address =>
    simp only [admitted, read, Option.filter_eq_some_iff, Bool.false_or] at passes
    exact passes.2

/-- The ways to go on from a candidate: there is no room, it is skipped, or the agent is called with it and refuses it or
takes it. -/
theorem takeCandidates_rule {motive : Intake → List String → Prop} (done : ∀ t, motive t [])
    (full : ∀ t raw rest, maxRemoteCandidates ≤ remote.length + t.added.length →
      takeCandidates unmarshalCandidate allowPublic remote adds t (raw :: rest) = t → motive t (raw :: rest))
    (skipped : ∀ t errors raw rest, raw ∈ remote ++ t.added ∨ admitted unmarshalCandidate allowPublic raw = none →
      takeCandidates unmarshalCandidate allowPublic remote adds t (raw :: rest) =
        takeCandidates unmarshalCandidate allowPublic remote adds { t with errors := errors } rest →
      motive { t with errors := errors } rest → motive t (raw :: rest))
    (refused : ∀ t errors raw addr e rest, remote.length + t.added.length < maxRemoteCandidates →
      raw ∉ remote ++ t.added → admitted unmarshalCandidate allowPublic raw = some addr →
      adds t.offered.length = some e →
      takeCandidates unmarshalCandidate allowPublic remote adds t (raw :: rest) =
        takeCandidates unmarshalCandidate allowPublic remote adds
          ⟨t.added, t.offered ++ [⟨raw, addr, allowPublic, false⟩], errors⟩ rest →
      motive ⟨t.added, t.offered ++ [⟨raw, addr, allowPublic, false⟩], errors⟩ rest → motive t (raw :: rest))
    (took : ∀ t raw addr rest, remote.length + t.added.length < maxRemoteCandidates → raw ∉ remote ++ t.added →
      admitted unmarshalCandidate allowPublic raw = some addr → adds t.offered.length = none →
      takeCandidates unmarshalCandidate allowPublic remote adds t (raw :: rest) =
        takeCandidates unmarshalCandidate allowPublic remote adds
          ⟨t.added ++ [raw], t.offered ++ [⟨raw, addr, allowPublic, true⟩], t.errors⟩ rest →
      motive ⟨t.added ++ [raw], t.offered ++ [⟨raw, addr, allowPublic, true⟩], t.errors⟩ rest → motive t (raw :: rest))
    (t : Intake) (raws : List String) : motive t raws := by
  fun_induction takeCandidates unmarshalCandidate allowPublic remote adds t raws with
  | case1 t => exact done t
  | case2 t raw rest enough => exact full t raw rest enough (by rw [takeCandidates, if_pos enough])
  | case3 t raw rest room known ih =>
    have step : takeCandidates unmarshalCandidate allowPublic remote adds t (raw :: rest) =
        takeCandidates unmarshalCandidate allowPublic remote adds t rest := by
      rw [takeCandidates, if_neg room, if_pos known]
    exact skipped t t.errors raw rest (.inl (List.mem_append.mpr known)) step ih
  | case4 t raw rest room known e bad ih =>
    refine skipped t _ raw rest (.inr (admitted_error bad)) ?_ ih
    simp only [takeCandidates, if_neg room, if_neg known, bad]
  | case5 t raw rest room known address read bad ih =>
    refine skipped t t.errors raw rest (.inr (admitted_unparsed read bad)) ?_ ih
    simp only [takeCandidates, if_neg room, if_neg known, read, bad]
  | case6 t raw rest room known address read addr parsed gate ih =>
    refine skipped t t.errors raw rest (.inr ((admitted_parsed read parsed).trans (if_pos gate))) ?_ ih
    simp only [takeCandidates, if_neg room, if_neg known, read, parsed, if_pos gate]
  | case7 t raw rest room known address read addr parsed gate e answer ih =>
    refine refused t _ raw addr e rest (Nat.not_le.mp room) (fun inside => known (List.mem_append.mp inside))
      ((admitted_parsed read parsed).trans (if_neg gate)) answer ?_ ih
    simp only [takeCandidates, if_neg room, if_neg known, read, parsed, if_neg gate, answer]
  | case8 t raw rest room known address read addr parsed gate answer ih =>
    refine took t raw addr rest (Nat.not_le.mp room) (fun inside => known (List.mem_append.mp inside))
      ((admitted_parsed read parsed).trans (if_neg gate)) answer ?_ ih
    simp only [takeCandidates, if_neg room, if_neg known, read, parsed, if_neg gate, answer]

/-- Rules for one candidate: what is kept when something is reported, when the agent refuses it and when the agent
takes it, is kept by the whole list. -/
theorem takeCandidates_keeps {P : Intake → Prop} (reported : ∀ t e, P t → P { t with errors := e })
    (refused : ∀ t raw addr e, remote.length + t.added.length < maxRemoteCandidates → raw ∉ remote → raw ∉ t.added →
      admitted unmarshalCandidate allowPublic raw = some addr → adds t.offered.length = some e → P t →
      P { t with offered := t.offered ++ [⟨raw, addr, allowPublic, false⟩] })
    (took : ∀ t raw addr, remote.length + t.added.length < maxRemoteCandidates → raw ∉ remote → raw ∉ t.added →
      admitted unmarshalCandidate allowPublic raw = some addr → adds t.offered.length = none → P t →
      P { t with added := t.added ++ [raw], offered := t.offered ++ [⟨raw, addr, allowPublic, true⟩] })
    {t : Intake} {raws : List String} (start : P t) :
    P (takeCandidates unmarshalCandidate allowPublic remote adds t raws) := by
  revert start
  induction t, raws using (@takeCandidates_rule unmarshalCandidate allowPublic remote adds) with
  | done t =>
    intro start
    exact start
  | full t raw rest _ step =>
    intro start
    rwa [step]
  | skipped t errors raw rest _ step later =>
    intro start
    rw [step]
    exact later (reported t errors start)
  | refused t errors raw addr e rest room new passes answer step later =>
    intro start
    obtain ⟨new, fresh⟩ := not_or.mp (List.mem_append.not.mp new)
    rw [step]
    exact later (reported _ errors (refused t raw addr e room new fresh passes answer start))
  | took t raw addr rest room new passes answer step later =>
    intro start
    obtain ⟨new, fresh⟩ := not_or.mp (List.mem_append.not.mp new)
    rw [step]
    exact later (took t raw addr room new fresh passes answer start)

/-- What holds of a command's candidates all along. -/
structure Intake.Good (unmarshalCandidate : String → Except String String) (allowPublic : Bool) (remote : List String)
    (t : Intake) : Prop where
  accepted : (t.offered.filter (·.accepted)).map (·.raw) = t.added
  nodup : t.added.Nodup
  few : remote.length ≤ maxRemoteCandidates → remote.length + t.added.length ≤ maxRemoteCandidates
  offers : ∀ o ∈ t.offered, o.publicAllowed = allowPublic ∧ o.raw ∉ remote ∧
    admitted unmarshalCandidate allowPublic o.raw = some o.addr

theorem intake_good (raws : List String) : Intake.Good unmarshalCandidate allowPublic remote
    (takeCandidates unmarshalCandidate allowPublic remote adds ⟨[], [], []⟩ raws) := by
  refine takeCandidates_keeps ?_ ?_ ?_ ⟨rfl, List.nodup_nil, fun few => few, fun o member => ?_⟩
  · exact fun t e good => ⟨good.accepted, good.nodup, good.few, good.offers⟩
  · intro t raw addr e room new fresh passes answer good
    refine ⟨?_, good.nodup, good.few, ?_⟩
    · rw [List.filter_append, List.map_append, good.accepted]
      exact List.append_nil _
    · intro o member
      obtain older | rfl := (List.mem_append.mp member).imp_right List.mem_singleton.mp
      · exact good.offers o older
      · exact ⟨rfl, new, passes⟩
  · intro t raw addr room new fresh passes answer good
    refine ⟨?_, ?_, fun few => ?_, ?_⟩
    · rw [List.filter_append, List.map_append, good.accepted]
      rfl
    · exact List.nodup_append.mpr ⟨good.nodup, List.nodup_singleton raw, fun a old b single => by
        obtain rfl := List.mem_singleton.mp single
        exact fun same => fresh (same ▸ old)⟩
    · rw [List.length_append, List.length_singleton]
      omega
    · intro o member
      obtain older | rfl := (List.mem_append.mp member).imp_right List.mem_singleton.mp
      · exact good.offers o older
      · exact ⟨rfl, new, passes⟩
  · cases member

/-- The candidates that are neither listed nor refused by the checks. -/
def fresh (unmarshalCandidate : String → Except String String) (allowPublic : Bool) (listed raws : List String) :
    List String :=
  raws.filter fun raw => raw ∉ listed ∧ (admitted unmarshalCandidate allowPublic raw).isSome

theorem fresh_skip {listed raws : List String} {raw : String}
    (skipped : raw ∈ listed ∨ admitted unmarshalCandidate allowPublic raw = none) :
    fresh unmarshalCandidate allowPublic listed (raw :: raws) = fresh unmarshalCandidate allowPublic listed raws := by
  refine List.filter_cons_of_neg fun counted => ?_
  obtain ⟨new, passes⟩ := of_decide_eq_true counted
  obtain known | refused := skipped
  · exact new known
  · rw [refused] at passes
    cases passes

theorem card_fresh {listed raws : List String} {raw : String} {addr : IpAddr} (new : raw ∉ listed)
    (passes : admitted unmarshalCandidate allowPublic raw = some addr) :
    (fresh unmarshalCandidate allowPublic listed (raw :: raws)).toFinset.card =
      (fresh unmarshalCandidate allowPublic (listed ++ [raw]) raws).toFinset.card + 1 := by
  have apart : raw ∉ (fresh unmarshalCandidate allowPublic (listed ++ [raw]) raws).toFinset := by
    simp [fresh]
  have split : (fresh unmarshalCandidate allowPublic listed (raw :: raws)).toFinset =
      insert raw (fresh unmarshalCandidate allowPublic (listed ++ [raw]) raws).toFinset := by
    ext other
    by_cases same : other = raw
    · simp [fresh, same, new, passes]
    · simp [fresh, same]
  rw [split, Finset.card_insert_of_notMem apart]

theorem offered_extends {t : Intake} {front : List Offer} {raws : List String} (same : t.offered = front) :
    front <+: (takeCandidates unmarshalCandidate allowPublic remote adds t raws).offered :=
  takeCandidates_keeps (P := fun t' => front <+: t'.offered) (fun _ _ kept => kept)
    (fun _ _ _ _ _ _ _ _ _ kept => kept.trans (List.prefix_append _ _))
    (fun _ _ _ _ _ _ _ _ kept => kept.trans (List.prefix_append _ _)) (same ▸ List.prefix_refl _)

theorem offered_ne {t : Intake} {front : List Offer} {o : Offer} {raws : List String}
    (more : t.offered = front ++ [o]) :
    (takeCandidates unmarshalCandidate allowPublic remote adds t raws).offered ≠ front := by
  intro same
  have extends_ : front ++ [o] <+: (takeCandidates unmarshalCandidate allowPublic remote adds t raws).offered :=
    offered_extends more
  have longer := extends_.length_le
  rw [same, List.length_append, List.length_singleton] at longer
  omega

theorem drop_of_extends {α : Type} {front whole : List α} {x : α} (starts : front ++ [x] <+: whole) :
    whole.drop front.length = x :: whole.drop (front ++ [x]).length := by
  obtain ⟨back, rfl⟩ := starts
  rw [List.drop_left, List.append_assoc, List.drop_left]
  rfl

theorem forall_lt_min_succ {P : Nat → Prop} {a b : Nat} (room : 0 < a) :
    (∀ n < min a (b + 1), P n) ↔ P 0 ∧ ∀ n < min (a - 1) b, P (n + 1) := by
  constructor
  · intro all
    exact ⟨all 0 (by omega), fun n below => all (n + 1) (by omega)⟩
  · rintro ⟨zero, later⟩ n below
    cases n with
    | zero => exact zero
    | succ n => exact later n (by omega)

/-- The agent takes everything it is called with if it takes each of the first calls, one for each new candidate
that still has room. -/
theorem all_accepted_iff (t : Intake) (raws : List String) :
    (∀ o ∈ (takeCandidates unmarshalCandidate allowPublic remote adds t raws).offered.drop t.offered.length,
      o.accepted = true) ↔
      ∀ n < min (maxRemoteCandidates - (remote.length + t.added.length))
        (fresh unmarshalCandidate allowPublic (remote ++ t.added) raws).toFinset.card,
        adds (t.offered.length + n) = none := by
  induction t, raws using (@takeCandidates_rule unmarshalCandidate allowPublic remote adds) with
  | done t =>
    simp [takeCandidates, fresh]
  | full t raw rest full step =>
    simp [step, Nat.sub_eq_zero_of_le full]
  | skipped t errors raw rest skip step ih =>
    rw [step, fresh_skip skip]
    exact ih
  | refused t errors raw addr e rest room new passes answer step ih =>
    rw [step, drop_of_extends (offered_extends rfl), card_fresh new passes, forall_lt_min_succ (by omega)]
    simp [answer]
  | took t raw addr rest room new passes answer step ih =>
    rw [step, drop_of_extends (offered_extends rfl), card_fresh new passes, forall_lt_min_succ (by omega)]
    simp only [List.mem_cons, forall_eq_or_imp, true_and, answer, Nat.add_zero]
    rw [ih]
    simp only [List.length_append, List.length_singleton, List.append_assoc, Nat.sub_sub, Nat.add_assoc,
      Nat.add_comm 1]

theorem fresh_cons {listed raws : List String} {raw : String} {addr : IpAddr} (new : raw ∉ listed)
    (passes : admitted unmarshalCandidate allowPublic raw = some addr) :
    fresh unmarshalCandidate allowPublic listed (raw :: raws) =
      raw :: fresh unmarshalCandidate allowPublic listed raws :=
  List.filter_cons_of_pos (decide_eq_true ⟨new, by rw [passes]; rfl⟩)

theorem none_offered_iff (t : Intake) (raws : List String) :
    (takeCandidates unmarshalCandidate allowPublic remote adds t raws).offered = t.offered ↔
      maxRemoteCandidates ≤ remote.length + t.added.length ∨
        fresh unmarshalCandidate allowPublic (remote ++ t.added) raws = [] := by
  induction t, raws using (@takeCandidates_rule unmarshalCandidate allowPublic remote adds) with
  | done t =>
    simp [takeCandidates, fresh]
  | full t raw rest full step =>
    simp [step, full]
  | skipped t errors raw rest skip step ih =>
    rw [step, fresh_skip skip]
    exact ih
  | refused t errors raw addr e rest room new passes answer step ih =>
    rw [step, fresh_cons new passes]
    exact iff_of_false (offered_ne rfl) fun none_new => none_new.elim (Nat.not_le.mpr room) (List.cons_ne_nil _ _)
  | took t raw addr rest room new passes answer step ih =>
    rw [step, fresh_cons new passes]
    exact iff_of_false (offered_ne rfl) fun none_new => none_new.elim (Nat.not_le.mpr room) (List.cons_ne_nil _ _)

theorem none_added_iff {t : Intake} (raws : List String) (start : t.added = []) :
    (takeCandidates unmarshalCandidate allowPublic remote adds t raws).added = [] ↔
      maxRemoteCandidates ≤ remote.length ∨
        ∀ n < (fresh unmarshalCandidate allowPublic remote raws).length, (adds (t.offered.length + n)).isSome := by
  revert start
  induction t, raws using (@takeCandidates_rule unmarshalCandidate allowPublic remote adds) with
  | done t =>
    intro start
    simp [takeCandidates, fresh, start]
  | full t raw rest full step =>
    intro start
    rw [start, List.length_nil, Nat.add_zero] at full
    simp [step, start, full]
  | skipped t errors raw rest skip step ih =>
    intro start
    rw [start, List.append_nil] at skip
    rw [step, fresh_skip skip]
    exact ih start
  | refused t errors raw addr e rest room new passes answer step ih =>
    intro start
    rw [start, List.append_nil] at new
    rw [step, fresh_cons new passes, ih start]
    refine or_congr_right ⟨fun later n below => ?_, fun all n below => ?_⟩
    · cases n with
      | zero => rw [Nat.add_zero, answer]; rfl
      | succ n =>
        have next := later n (Nat.lt_of_succ_lt_succ below)
        rwa [List.length_append, List.length_singleton, Nat.add_assoc, Nat.add_comm 1] at next
    · have next := all (n + 1) (Nat.succ_lt_succ below)
      rwa [List.length_append, List.length_singleton, Nat.add_assoc, Nat.add_comm 1]
  | took t raw addr rest room new passes answer step ih =>
    intro start
    rw [start, List.append_nil] at new
    rw [step, fresh_cons new passes]
    refine iff_of_false (fun same => ?_) ?_
    · have kept : raw ∈ (takeCandidates unmarshalCandidate allowPublic remote adds
          ⟨t.added ++ [raw], t.offered ++ [⟨raw, addr, allowPublic, true⟩], t.errors⟩ rest).added :=
        takeCandidates_keeps (P := fun t' => raw ∈ t'.added) (fun _ _ kept => kept)
          (fun _ _ _ _ _ _ _ _ _ kept => kept) (fun _ _ _ _ _ _ _ _ kept => List.mem_append_left _ kept)
          (List.mem_append_right _ (List.mem_singleton_self raw))
      rw [same] at kept
      cases kept
    · rintro (full | refused)
      · rw [start, List.length_nil, Nat.add_zero] at room
        omega
      · have first := refused 0 (Nat.succ_pos _)
        rw [Nat.add_zero, answer] at first
        cases first

end Intake

/-! ## Sessions -/

/-- What counts as handed over: every call of the agent, or only those in which it took the candidate. -/
inductive Reading where
  | called
  | taken
  deriving DecidableEq

def Reading.counts : Reading → Offer → Bool
  | .called, _ => true
  | .taken, o => o.accepted

def Session.handed (reading : Reading) (s : Session) : List Offer := s.offered.filter reading.counts

/-- No candidate is handed over twice, at most 32 are, none is public unless that was allowed, and each is listed. -/
structure Session.Sound (reading : Reading) (s : Session) : Prop where
  once : ((s.handed reading).map (·.raw)).Nodup
  few : (s.handed reading).length ≤ maxRemoteCandidates
  inside : ∀ o ∈ s.handed reading, o.publicAllowed = false → isPrivateIp o.addr = true
  listed : ∀ o ∈ s.handed reading, o.raw ∈ s.remoteCandidates

section Sessions

variable (unmarshalCandidate : String → Except String String)

/-- The answers of the agent to one command leave nothing unlisted: no call for a new candidate that has room fails,
and the credentials do not fail after such a call. If only taken candidates count, calls may fail, and the credentials
may fail after calls that all failed. -/
def Session.Takes (s : Session) (allowPublic : Bool) (remote : Remote) : Reading → Prop
  | .called =>
    (∀ n < min (maxRemoteCandidates - s.remoteCandidates.length)
      (fresh unmarshalCandidate allowPublic s.remoteCandidates remote.candidates).toFinset.card,
      remote.adds n = none) ∧
    (remote.credentials = true ∨ maxRemoteCandidates ≤ s.remoteCandidates.length ∨
      fresh unmarshalCandidate allowPublic s.remoteCandidates remote.candidates = [])
  | .taken =>
    remote.credentials = true ∨ maxRemoteCandidates ≤ s.remoteCandidates.length ∨
      ∀ n < (fresh unmarshalCandidate allowPublic s.remoteCandidates remote.candidates).length,
        (remote.adds n).isSome

/-- The condition on a command: the session it is for, if there is one, loses nothing. -/
def Command.Clear (reading : Reading) (m : Manager) : Command → Prop
  | .addRemote pubkey _ _ remote => ∀ session, m.sessions.find? pubkey = some session →
      session.Takes unmarshalCandidate m.allowPublicCandidates remote reading
  | _ => True

def Manager.Sound (reading : Reading) (m : Manager) : Prop := ∀ row ∈ m.sessions.rows, row.2.Sound reading

variable {unmarshalCandidate} {reading : Reading} {s : Session} {allowPublic : Bool} {remote : Remote}

theorem takes_iff : s.Takes unmarshalCandidate allowPublic remote reading ↔
    (∀ o ∈ (s.intake unmarshalCandidate allowPublic remote).offered, reading.counts o = true → o.accepted = true) ∧
    (remote.credentials = true ∨ (s.intake unmarshalCandidate allowPublic remote).offered.filter reading.counts = []) := by
  have start : s.intake unmarshalCandidate allowPublic remote =
    takeCandidates unmarshalCandidate allowPublic s.remoteCandidates remote.adds ⟨[], [], []⟩ remote.candidates := rfl
  have good := @intake_good unmarshalCandidate allowPublic s.remoteCandidates remote.adds remote.candidates
  rw [← start] at good
  cases reading with
  | called =>
    have all := @all_accepted_iff unmarshalCandidate allowPublic s.remoteCandidates remote.adds
      ⟨[], [], []⟩ remote.candidates
    have none_called := @none_offered_iff unmarshalCandidate allowPublic s.remoteCandidates remote.adds
      ⟨[], [], []⟩ remote.candidates
    simp only [← start, List.length_nil, List.drop_zero, Nat.add_zero, List.append_nil, Nat.zero_add]
      at all none_called
    have every : (s.intake unmarshalCandidate allowPublic remote).offered.filter Reading.called.counts =
      (s.intake unmarshalCandidate allowPublic remote).offered := List.filter_eq_self.mpr fun _ _ => rfl
    rw [every, none_called, Session.Takes, ← all]
    simp only [Reading.counts, forall_const]
  | taken =>
    have none_taken := @none_added_iff unmarshalCandidate allowPublic s.remoteCandidates remote.adds
      ⟨[], [], []⟩ remote.candidates rfl
    simp only [← start, List.length_nil, Nat.zero_add, ← good.accepted, List.map_eq_nil_iff] at none_taken
    have taken : Reading.taken.counts = fun o => o.accepted := rfl
    rw [taken, none_taken, Session.Takes]
    simp only [imp_self, implies_true, true_and]

/-- A session that lists what was handed over, in order. -/
structure Session.Kept (reading : Reading) (s : Session) : Prop where
  listed : (s.handed reading).map (·.raw) = s.remoteCandidates
  nodup : s.remoteCandidates.Nodup
  few : s.remoteCandidates.length ≤ maxRemoteCandidates
  inside : ∀ o ∈ s.offered, o.publicAllowed = false → isPrivateIp o.addr = true

theorem Session.Kept.sound (kept : s.Kept reading) : s.Sound reading where
  once := by
    rw [kept.listed]
    exact kept.nodup
  few := by
    rw [← List.length_map (f := fun o : Offer => o.raw), kept.listed]
    exact kept.few
  inside o member := kept.inside o (List.mem_of_mem_filter member)
  listed o member := by
    rw [← kept.listed]
    exact List.mem_map_of_mem member

theorem Session.Kept.congr {t : Session} (kept : s.Kept reading) (offered : t.offered = s.offered)
    (candidates : t.remoteCandidates = s.remoteCandidates) : t.Kept reading where
  listed := by
    rw [Session.handed, offered, candidates]
    exact kept.listed
  nodup := candidates ▸ kept.nodup
  few := candidates ▸ kept.few
  inside := offered ▸ kept.inside

theorem kept_empty (offered : s.offered = []) (candidates : s.remoteCandidates = []) : s.Kept reading where
  listed := by
    rw [Session.handed, offered, candidates]
    rfl
  nodup := candidates ▸ List.nodup_nil
  few := candidates ▸ Nat.zero_le _
  inside o member := by
    rw [offered] at member
    exact absurd member List.not_mem_nil

theorem addRemote_offered : (s.addRemote unmarshalCandidate allowPublic remote).offered =
    s.offered ++ (s.intake unmarshalCandidate allowPublic remote).offered := by
  unfold Session.addRemote
  dsimp only
  split <;> rfl

theorem addRemote_handed : (s.addRemote unmarshalCandidate allowPublic remote).handed reading =
    s.handed reading ++ (s.intake unmarshalCandidate allowPublic remote).offered.filter reading.counts := by
  rw [Session.handed, addRemote_offered, List.filter_append]
  rfl

theorem inside_addRemote (inside : ∀ o ∈ s.offered, o.publicAllowed = false → isPrivateIp o.addr = true) :
    ∀ o ∈ (s.addRemote unmarshalCandidate allowPublic remote).offered, o.publicAllowed = false →
      isPrivateIp o.addr = true := by
  intro o member gated
  rw [addRemote_offered] at member
  obtain older | new := List.mem_append.mp member
  · exact inside o older gated
  · obtain ⟨allowed, -, passes⟩ := (intake_good remote.candidates).offers o new
    rw [← allowed, gated] at passes
    exact private_of_admitted passes

theorem kept_addRemote (kept : s.Kept reading) (takes : s.Takes unmarshalCandidate allowPublic remote reading) :
    (s.addRemote unmarshalCandidate allowPublic remote).Kept reading := by
  obtain ⟨accepted, credentials⟩ := takes_iff.mp takes
  have good : Intake.Good unmarshalCandidate allowPublic s.remoteCandidates
    (s.intake unmarshalCandidate allowPublic remote) := intake_good remote.candidates
  have inside := @inside_addRemote unmarshalCandidate s allowPublic remote kept.inside
  -- What counts as handed over is what was taken.
  have counted : (s.intake unmarshalCandidate allowPublic remote).offered.filter reading.counts =
      (s.intake unmarshalCandidate allowPublic remote).offered.filter (·.accepted) := by
    refine List.filter_congr fun o member => ?_
    cases reading with
    | called => exact (accepted o member rfl).symm
    | taken => rfl
  have handed : ((s.addRemote unmarshalCandidate allowPublic remote).handed reading).map (·.raw) =
      s.remoteCandidates ++ (s.intake unmarshalCandidate allowPublic remote).added := by
    rw [addRemote_handed, List.map_append, counted, good.accepted, kept.listed]
  have apart : ∀ raw ∈ (s.intake unmarshalCandidate allowPublic remote).added, raw ∉ s.remoteCandidates := by
    intro raw member
    rw [← good.accepted] at member
    obtain ⟨o, taken, rfl⟩ := List.mem_map.mp member
    exact (good.offers o (List.mem_of_mem_filter taken)).2.1
  cases succeeded : remote.credentials with
  | true =>
    have after : (s.addRemote unmarshalCandidate allowPublic remote).remoteCandidates =
        s.remoteCandidates ++ (s.intake unmarshalCandidate allowPublic remote).added := by
      rw [Session.addRemote, succeeded]
      rfl
    refine ⟨handed.trans after.symm, ?_, ?_, inside⟩
    · rw [after]
      exact List.nodup_append.mpr ⟨kept.nodup, good.nodup, fun a old b new same => apart b new (same ▸ old)⟩
    · rw [after, List.length_append]
      exact good.few kept.few
  | false =>
    have after : (s.addRemote unmarshalCandidate allowPublic remote).remoteCandidates = s.remoteCandidates := by
      rw [Session.addRemote, succeeded]
      rfl
    have none_taken : (s.intake unmarshalCandidate allowPublic remote).added = [] := by
      rw [← good.accepted, ← counted, credentials.resolve_left (by rw [succeeded]; decide), List.map_nil]
    rw [none_taken, List.append_nil] at handed
    exact ⟨handed.trans after.symm, after ▸ kept.nodup, after ▸ kept.few, inside⟩

theorem listed_of_sound (sound : (s.addRemote unmarshalCandidate allowPublic remote).Sound reading) {o : Offer}
    (member : o ∈ (s.intake unmarshalCandidate allowPublic remote).offered) (counts : reading.counts o = true) :
    remote.credentials = true ∧ o.raw ∈ (s.intake unmarshalCandidate allowPublic remote).added := by
  have handed : o ∈ (s.addRemote unmarshalCandidate allowPublic remote).handed reading := by
    rw [addRemote_handed]
    exact List.mem_append_right _ (List.mem_filter.mpr ⟨member, counts⟩)
  have inside := sound.listed o handed
  have new := ((intake_good remote.candidates).offers o member).2.1
  cases succeeded : remote.credentials with
  | true =>
    rw [Session.addRemote, succeeded] at inside
    exact ⟨rfl, (List.mem_append.mp inside).resolve_left new⟩
  | false =>
    rw [Session.addRemote, succeeded] at inside
    exact absurd inside new

theorem accepted_of_sound (sound : (s.addRemote unmarshalCandidate allowPublic remote).Sound .called) {o : Offer}
    (member : o ∈ (s.intake unmarshalCandidate allowPublic remote).offered) : o.accepted = true := by
  have good : Intake.Good unmarshalCandidate allowPublic s.remoteCandidates
    (s.intake unmarshalCandidate allowPublic remote) := intake_good remote.candidates
  have once := sound.once
  have every : (s.intake unmarshalCandidate allowPublic remote).offered.filter Reading.called.counts =
    (s.intake unmarshalCandidate allowPublic remote).offered := List.filter_eq_self.mpr fun _ _ => rfl
  rw [addRemote_handed, every, List.map_append] at once
  have taken := (listed_of_sound sound member rfl).2
  rw [← good.accepted] at taken
  obtain ⟨other, accepted, same⟩ := List.mem_map.mp taken
  obtain ⟨offered, accepted⟩ := List.mem_filter.mp accepted
  obtain rfl := List.inj_on_of_nodup_map (List.nodup_append.mp once).2.1 member offered same.symm
  exact accepted

theorem takes_of_sound (sound : (s.addRemote unmarshalCandidate allowPublic remote).Sound reading) :
    s.Takes unmarshalCandidate allowPublic remote reading := by
  refine takes_iff.mpr ⟨fun o member counts => ?_, ?_⟩
  · cases reading with
    | taken => exact counts
    | called => exact accepted_of_sound sound member
  · by_contra lost
    obtain ⟨failed, some_handed⟩ := not_or.mp lost
    obtain ⟨o, member⟩ := List.exists_mem_of_ne_nil _ some_handed
    obtain ⟨offered, counts⟩ := List.mem_filter.mp member
    exact failed (listed_of_sound sound offered counts).1

/-! ## Runs of the driver -/

variable {m : Manager}

def Manager.Kept (reading : Reading) (m : Manager) : Prop := ∀ row ∈ m.sessions.rows, row.2.Kept reading

theorem mem_update {pubkey : String} {f : Session → Session} {row : String × Session} :
    row ∈ (m.update pubkey f).sessions.rows ↔
      ∃ session, (row.1, session) ∈ m.sessions.rows ∧ row.2 = if row.1 = pubkey then f session else session := by
  constructor
  · intro member
    obtain ⟨before, inside, rfl⟩ := List.mem_map.mp member
    exact ⟨before.2, inside, rfl⟩
  · rintro ⟨session, inside, same⟩
    exact List.mem_map.mpr ⟨_, inside, Prod.ext rfl same.symm⟩

theorem kept_update {pubkey : String} {f : Session → Session} (kept : m.Kept reading)
    (keeps : ∀ session, (pubkey, session) ∈ m.sessions.rows → session.Kept reading → (f session).Kept reading) :
    (m.update pubkey f).Kept reading := by
  rintro ⟨key, after⟩ member
  obtain ⟨session, inside, same⟩ := mem_update.mp member
  dsimp only at inside same ⊢
  rw [same]
  split
  · rename_i here
    subst here
    exact keeps session inside (kept _ inside)
  · exact kept _ inside

theorem kept_gather (pubkey : String) (outcome : Except String Session) (kept : m.Kept reading) :
    (m.step unmarshalCandidate (.gather pubkey outcome)).Kept reading := by
  unfold Manager.step
  dsimp only
  split
  · exact kept
  · rename_i absent
    cases outcome with
    | error e => exact kept
    | ok session =>
      intro row member
      have found := Table.find?_eq_some.mpr member
      rw [Table.find?_insertIgnore] at found
      split at found
      · rw [Table.find?_eq_none.mpr absent] at found
        rw [← Option.some.inj found]
        exact kept_empty rfl rfl
      · exact kept row (Table.find?_eq_some.mp found)

theorem kept_step (call : Command) (kept : m.Kept reading) (clear : call.Clear unmarshalCandidate reading m) :
    (m.step unmarshalCandidate call).Kept reading := by
  cases call with
  | creds pubkey => exact kept
  | setPublicCandidates allow => exact kept
  | remove pubkey => exact fun row member => kept row (List.mem_of_mem_filter member)
  | prune => exact fun row member => kept row (List.mem_of_mem_filter member)
  | status selected =>
    intro row member
    obtain ⟨before, inside, rfl⟩ := List.mem_map.mp member
    dsimp only
    split
    · exact (kept before inside).congr rfl rfl
    · exact kept before inside
  | connectionState pubkey state => exact kept_update kept fun session _ same => same.congr rfl rfl
  | gather pubkey outcome => exact kept_gather pubkey outcome kept
  | addRemote pubkey ufrag pwd remote =>
    exact kept_update kept fun session inside before =>
      kept_addRemote before (clear session (Table.find?_eq_some.mpr inside))

theorem clear_of_sound (call : Command)
    (sound : (m.step unmarshalCandidate call).Sound reading) : call.Clear unmarshalCandidate reading m := by
  cases call with
  | addRemote pubkey ufrag pwd remote =>
    intro session found
    have inside := Table.find?_eq_some.mp found
    refine takes_of_sound ?_
    have after := sound (pubkey, session.addRemote unmarshalCandidate m.allowPublicCandidates remote)
      (mem_update.mpr ⟨session, inside, (if_pos rfl).symm⟩)
    exact after
  | gather | remove | creds | status | setPublicCandidates | connectionState | prune => trivial

end Sessions

/-- In every run, what is handed to the agents is handed once, is at most 32 candidates for each, is private unless
public ones were allowed, and is listed, exactly as long as no answer of an agent makes the driver lose a candidate. -/
theorem nat_candidates_iff (unmarshalCandidate : String → Except String String) (reading : Reading)
    (calls : List Command) :
    Always (Manager.step unmarshalCandidate) (Manager.Sound reading) Manager.new calls ↔
      Throughout (Manager.step unmarshalCandidate) (fun m call => call.Clear unmarshalCandidate reading m) Manager.new
        calls :=
  have sound (m : Manager) (kept : m.Kept reading) : m.Sound reading := fun row member => (kept row member).sound
  have forced (m : Manager) (call : Command) (_ : m.Kept reading)
      (after : (m.step unmarshalCandidate call).Sound reading) : call.Clear unmarshalCandidate reading m :=
    clear_of_sound call after
  have keeps (m : Manager) (call : Command) (kept : m.Kept reading) (clear : call.Clear unmarshalCandidate reading m) :
      (m.step unmarshalCandidate call).Kept reading := kept_step call kept clear
  Runs.always_iff_of_invariant sound forced keeps fun _ member => absurd member List.not_mem_nil

/-! ## A failed credential step -/

def hostCandidate : String := "1 1 udp 2130706431 10.0.0.7 40000 typ host"

def sampleUnmarshal (raw : String) : Except String String :=
  if raw = hostCandidate then .ok "10.0.0.7" else .error "ErrAttributeTooShortIceCandidate"

/-- A peer that sends an empty user fragment, which an agent refuses, and sends the same candidate again. -/
def retriedCalls : List Command :=
  [.gather "peer" (.ok ⟨[], "new", none, ["local"], [], "ufrag", "pwd"⟩),
    .addRemote "peer" "" "pwd" ⟨[hostCandidate], fun _ => none, false⟩,
    .addRemote "peer" "" "pwd" ⟨[hostCandidate], fun _ => none, false⟩]

/-- The candidate was handed over and taken twice, and it is not listed. -/
theorem retried_candidate_unlisted :
    (Runs.run (Manager.step sampleUnmarshal) Manager.new retriedCalls).sessions.rows.map
        (fun row => (row.1, (row.2.handed .taken).map (·.raw), row.2.remoteCandidates)) =
      [("peer", [hostCandidate, hostCandidate], [])] ∧
    ∀ reading, ¬ Always (Manager.step sampleUnmarshal) (Manager.Sound reading) Manager.new retriedCalls := by
  have after : (Runs.run (Manager.step sampleUnmarshal) Manager.new retriedCalls).sessions.rows.map
      (fun row => (row.1, (row.2.handed .taken).map (·.raw), row.2.remoteCandidates)) =
        [("peer", [hostCandidate, hostCandidate], [])] := by rfl
  refine ⟨after, fun reading always => ?_⟩
  obtain ⟨row, member, same⟩ := List.mem_map.mp (after.symm ▸ List.mem_singleton_self _)
  simp only [Prod.mk.injEq] at same
  obtain ⟨-, handed, unlisted⟩ := same
  have taken : hostCandidate ∈ (row.2.handed .taken).map (·.raw) := by
    rw [handed]
    exact List.mem_cons_self
  obtain ⟨o, inside, raw⟩ := List.mem_map.mp taken
  obtain ⟨offered, accepted⟩ := List.mem_filter.mp inside
  have counted : o ∈ row.2.handed reading := by
    refine List.mem_filter.mpr ⟨offered, ?_⟩
    cases reading with
    | called => rfl
    | taken => exact accepted
  have listed := (always.last row member).listed o counted
  rw [unlisted] at listed
  cases listed

end Soshal.Network.Nat
