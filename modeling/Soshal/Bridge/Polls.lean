import Soshal.Bridge.Escrow
import Soshal.Library.Fallible
import Soshal.Library.JsonStrings
import Mathlib.Data.List.Dedup

/-! Marketplace polls: votes by voter, closing by the owner, and the tally.

A vote is stored under the poll and the voter, so a later one replaces it. Its option
is any number that is not negative; the tally has a place for the options of the poll.
-/

set_option autoImplicit false

namespace Soshal.Bridge.Polls

open Library
open Library.Runs (run)
open Library.Text (normKey eqIgnoreAsciiCase)
open Bridge.Escrow (Key requireIdentity toHex)

structure PollRow where
  pubkey : String
  question : String
  options : String
  expiresAt : Int
  closed : Bool
  createdAt : Int
  deriving DecidableEq

structure PollVoteRow where
  id : String
  optionId : Int
  votedAt : Int
  deriving DecidableEq

/-- `polls` by its `id`, and `poll_votes` by its unique index on poll and voter. -/
structure PollDb where
  polls : Table String PollRow
  votes : Table (String × String) PollVoteRow

/-- `invalidOptions` is the text `invalid options JSON: ` before what the JSON reader says. -/
inductive Failure where
  | message (text : String)
  | invalidOptions
  deriving DecidableEq

def getPoll (db : PollDb) (id : String) : Option PollRow := db.polls.find? id

def setClosed (db : PollDb) (id : String) (closed : Bool) : PollDb :=
  { db with polls := db.polls.modify fun key row => if key = id then { row with closed } else row }

def vote (db : PollDb) (pollId voterPubkey : String) (v : PollVoteRow) : PollDb :=
  { db with votes := db.votes.upsert (pollId, normKey voterPubkey) v fun old =>
      { old with optionId := v.optionId, votedAt := v.votedAt } }

/-- `id` is the random id that is drawn for the row. -/
def marketplacePollVote (db : PollDb) (signer : Option Key) (now : Int) (id pollId voterPubkey : String)
    (optionIndex : Int) : Except Failure PollDb :=
  if optionIndex < 0 then .error (.message "option_index must be non-negative")
  else do
    let voterPubkey := normKey voterPubkey
    let _ ← (requireIdentity signer voterPubkey).mapError .message
    match getPoll db pollId with
    | none => .error (.message "poll not found")
    | some poll =>
      if poll.closed then .error (.message "poll is closed")
      else .ok (vote db pollId voterPubkey ⟨id, optionIndex, now⟩)

def marketplacePollClose (db : PollDb) (signer : Option Key) (pollId userPubkey : String) : Except Failure PollDb := do
  let userPubkey := normKey userPubkey
  let _ ← (requireIdentity signer userPubkey).mapError .message
  match getPoll db pollId with
  | none => .error (.message "poll not found")
  | some poll =>
    if !eqIgnoreAsciiCase poll.pubkey userPubkey then .error (.message "not poll owner")
    else .ok (setClosed db pollId true)

def optionIds (db : PollDb) (pollId : String) : List Int :=
  (db.votes.rows.filter fun row => decide (row.1.1 = pollId)).map fun row => row.2.optionId

/-- `SELECT option_id, COUNT(*) … GROUP BY option_id`. -/
def voteGroups (db : PollDb) (pollId : String) : List (Int × Nat) :=
  (optionIds db pollId).dedup.map fun option => (option, (optionIds db pollId).count option)

def placeVotes (votes : List Nat) (groups : List (Int × Nat)) : List Nat :=
  groups.foldl (fun votes group => if 0 ≤ group.1 then votes.set group.1.toNat group.2 else votes) votes

structure PollView where
  id : String
  question : String
  votes : List Nat
  deriving DecidableEq

def marketplacePollGet (db : PollDb) (pollId : String) : Except Failure PollView :=
  match getPoll db pollId with
  | none => .error (.message "poll not found")
  | some poll =>
    match JsonStrings.fromJson poll.options with
    | none => .error .invalidOptions
    | some options =>
      .ok ⟨pollId, poll.question, placeVotes (List.replicate options.length 0) (voteGroups db pollId)⟩

inductive Call where
  | vote (signer : Option Key) (now : Int) (id pollId voterPubkey : String) (optionIndex : Int)
  | close (signer : Option Key) (pollId userPubkey : String)

def answer (db : PollDb) : Call → Except Failure PollDb
  | .vote signer now id pollId voterPubkey optionIndex =>
    marketplacePollVote db signer now id pollId voterPubkey optionIndex
  | .close signer pollId userPubkey => marketplacePollClose db signer pollId userPubkey

def step (db : PollDb) (call : Call) : PollDb := (answer db call).toOption.getD db

/-- The voter and the option of a vote on the poll that is accepted. -/
def ballot (pollId : String) (db : PollDb) (call : Call) : Option (String × Int) :=
  match call with
  | .vote _ _ _ target voterPubkey optionIndex =>
    if target = pollId ∧ (answer db call).isOk then some (normKey voterPubkey, optionIndex) else none
  | .close .. => none

def accepted (pollId : String) : PollDb → List Call → List (String × Int)
  | _, [] => []
  | db, call :: rest => (ballot pollId db call).toList ++ accepted pollId (step db call) rest

def voters (ballots : List (String × Int)) : List String := (ballots.map Prod.fst).dedup

def lastOption (ballots : List (String × Int)) (voter : String) : Option Int := ballots.reverse.lookup voter

theorem length_placeVotes (groups : List (Int × Nat)) (votes : List Nat) :
    (placeVotes votes groups).length = votes.length := by
  induction groups generalizing votes with
  | nil => rfl
  | cons group rest ih =>
    rw [placeVotes, List.foldl_cons]
    refine (ih _).trans ?_
    split
    · exact List.length_set ..
    · rfl

theorem getElem?_placeVotes {groups : List (Int × Nat)} (nodup : (groups.map Prod.fst).Nodup) {votes : List Nat} {i : Nat}
    (inside : i < votes.length) :
    (placeVotes votes groups)[i]? = (groups.lookup (i : Int)).or votes[i]? := by
  induction groups generalizing votes with
  | nil => rfl
  | cons group rest ih =>
    obtain ⟨option, count⟩ := group
    obtain ⟨absent, nodup⟩ := List.nodup_cons.mp nodup
    rw [placeVotes, List.foldl_cons]
    have size : (if 0 ≤ option then votes.set option.toNat count else votes).length = votes.length := by
      split
      · exact List.length_set ..
      · rfl
    refine (ih nodup (size ▸ inside)).trans ?_
    by_cases same : (i : Int) = option
    · -- this group is the only one for its place
      have missing : rest.lookup (i : Int) = none := Table.lookup_eq_none.mpr (same ▸ absent)
      have placed : 0 ≤ option := same ▸ Int.natCast_nonneg i
      have place : option.toNat = i := by omega
      rw [missing, if_pos placed, place, List.getElem?_set_self inside, same]
      simp
    · have elsewhere : (if 0 ≤ option then votes.set option.toNat count else votes)[i]? = votes[i]? := by
        split
        · exact List.getElem?_set_ne (by omega)
        · rfl
      rw [elsewhere, List.lookup_cons, beq_eq_false_iff_ne.mpr same]

theorem placeVotes_voteGroups (db : PollDb) (pollId : String) (n : Nat) :
    placeVotes (List.replicate n 0) (voteGroups db pollId) =
      (List.range n).map fun i : Nat => (optionIds db pollId).count (i : Int) := by
  have keys : (voteGroups db pollId).map Prod.fst = (optionIds db pollId).dedup := by
    rw [voteGroups, List.map_map]
    exact List.map_id _
  have nodup : ((voteGroups db pollId).map Prod.fst).Nodup := keys ▸ List.nodup_dedup _
  refine List.ext_getElem? fun i => ?_
  by_cases inside : i < n
  · have place : i < (List.replicate n 0).length := by rwa [List.length_replicate]
    rw [getElem?_placeVotes nodup place, List.getElem?_map, List.getElem?_range inside, List.getElem?_replicate,
      if_pos inside, Option.map_some]
    cases found : (voteGroups db pollId).lookup (i : Int) with
    | none =>
      have absent : (i : Int) ∉ (voteGroups db pollId).map Prod.fst := Table.lookup_eq_none.mp found
      rw [keys, List.mem_dedup] at absent
      rw [List.count_eq_zero.mpr absent]
      rfl
    | some count =>
      obtain ⟨option, -, same⟩ := List.mem_map.mp ((Table.lookup_eq_some nodup).mp found)
      obtain ⟨rfl, rfl⟩ := Prod.mk.inj same
      rfl
  · rw [List.getElem?_eq_none (by rw [length_placeVotes, List.length_replicate]; omega),
      List.getElem?_eq_none (by rw [List.length_map, List.length_range]; omega)]

/-- The option has a place in a tally of `n`. -/
def Listed (n : Nat) (option : Int) : Prop := 0 ≤ option ∧ option < n

instance (n : Nat) (option : Int) : Decidable (Listed n option) := inferInstanceAs (Decidable (_ ∧ _))

theorem countP_listed_succ (ids : List Int) (n : Nat) :
    ids.countP (fun id => decide (Listed (n + 1) id)) =
      ids.countP (fun id => decide (Listed n id)) + ids.count (n : Int) := by
  induction ids with
  | nil => rfl
  | cons id rest ih =>
    rw [List.countP_cons, List.countP_cons, List.count_cons, ih]
    by_cases last : id = n
    · obtain rfl := last
      have before : ¬ Listed n (n : Int) := by
        unfold Listed
        omega
      have now : Listed (n + 1) (n : Int) := by
        unfold Listed
        omega
      simp [before, now, Nat.add_assoc]
    · have same : Listed (n + 1) id ↔ Listed n id := by
        unfold Listed
        omega
      simp only [same, beq_eq_false_iff_ne.mpr last, Bool.false_eq_true, if_false]
      omega

theorem sum_counts (ids : List Int) (n : Nat) :
    ((List.range n).map fun i : Nat => ids.count (i : Int)).sum = ids.countP fun id => decide (Listed n id) := by
  induction n with
  | zero =>
    refine (List.countP_eq_zero.mpr fun id _ => ?_).symm
    simp [Listed]
  | succ n ih =>
    rw [List.range_succ, List.map_append, List.sum_append, ih, List.map_singleton, List.sum_singleton,
      countP_listed_succ]

section Step

variable {db : PollDb} {pollId : String}

theorem lastOption_snoc (ballots : List (String × Int)) (voter other : String) (option : Int) :
    lastOption (ballots ++ [(voter, option)]) other = if other = voter then some option else lastOption ballots other := by
  rw [lastOption, List.reverse_append, List.reverse_singleton, List.singleton_append, List.lookup_cons]
  by_cases same : other = voter
  · simp [same]
  · rw [beq_eq_false_iff_ne.mpr same, if_neg same]
    rfl

/-- The stored votes on a poll are the last ones of the ballots so far. -/
def Tallied (pollId : String) (db : PollDb) (ballots : List (String × Int)) : Prop :=
  ∀ voter, (db.votes.find? (pollId, voter)).map PollVoteRow.optionId = lastOption ballots voter

theorem marketplacePollVote_ok {after : PollDb} {signer : Option Key} {now : Int} {id target voterPubkey : String}
    {optionIndex : Int} (ok : marketplacePollVote db signer now id target voterPubkey optionIndex = .ok after) :
    0 ≤ optionIndex ∧ (∃ poll, db.polls.find? target = some poll ∧ poll.closed = false) ∧
      after = vote db target (normKey voterPubkey) ⟨id, optionIndex, now⟩ := by
  unfold marketplacePollVote at ok
  split at ok
  · cases ok
  · rename_i positive
    obtain ⟨_, _, ok⟩ := Fallible.bind_eq_ok.mp ok
    cases found : getPoll db target with
    | none => simp [found] at ok
    | some poll =>
      cases closed : poll.closed with
      | true => simp [found, closed] at ok
      | false =>
        simp only [found, closed, Bool.false_eq_true, if_false, Except.ok.injEq] at ok
        exact ⟨Int.not_lt.mp positive, ⟨poll, found, closed⟩, ok.symm⟩

theorem marketplacePollClose_ok {after : PollDb} {signer : Option Key} {target userPubkey : String}
    (ok : marketplacePollClose db signer target userPubkey = .ok after) : after = setClosed db target true := by
  unfold marketplacePollClose at ok
  obtain ⟨_, _, ok⟩ := Fallible.bind_eq_ok.mp ok
  cases found : getPoll db target with
  | none => simp [found] at ok
  | some poll =>
    simp only [found] at ok
    split at ok
    · cases ok
    · exact (Except.ok.inj ok).symm

theorem step_of_ok {after : PollDb} {call : Call} (ok : answer db call = .ok after) : step db call = after := by
  rw [step, ok]
  rfl

theorem step_of_error {failure : Failure} {call : Call} (failed : answer db call = .error failure) : step db call = db := by
  rw [step, failed]
  rfl

section

variable {ballots : List (String × Int)} (tallied : Tallied pollId db ballots)
include tallied

theorem Tallied.vote (voter : String) (row : PollVoteRow) :
    Tallied pollId (vote db pollId voter row) (ballots ++ [(normKey voter, row.optionId)]) := by
  intro other
  rw [lastOption_snoc, Polls.vote, Table.find?_upsert]
  by_cases same : other = normKey voter
  · subst same
    rw [if_pos rfl, if_pos rfl]
    cases db.votes.find? (pollId, normKey voter) <;> rfl
  · rw [if_neg fun both => same (Prod.mk.inj both).2, if_neg same]
    exact tallied other

theorem Tallied.vote_elsewhere {target : String} (other : target ≠ pollId) (voter : String) (row : PollVoteRow) :
    Tallied pollId (Polls.vote db target voter row) ballots := by
  intro name
  rw [Polls.vote, Table.find?_upsert, if_neg fun both => other (Prod.mk.inj both).1.symm]
  exact tallied name

theorem Tallied.step (call : Call) : Tallied pollId (step db call) (ballots ++ (ballot pollId db call).toList) := by
  rcases Fallible.error_or_ok (answer db call) with ⟨failure, failed⟩ | ⟨after, ok⟩
  · -- A call that fails writes nothing and is no ballot.
    have unheard : ballot pollId db call = none := by
      unfold ballot
      cases call with
      | vote => exact if_neg fun both => by simp [failed, Except.isOk, Except.toBool] at both
      | close => rfl
    rw [step_of_error failed, unheard, Option.toList_none, List.append_nil]
    exact tallied
  · rw [step_of_ok ok]
    cases call with
    | close signer target userPubkey =>
      obtain rfl := marketplacePollClose_ok ok
      rw [ballot, Option.toList_none, List.append_nil]
      exact tallied
    | vote signer now id target voterPubkey optionIndex =>
      obtain ⟨-, -, rfl⟩ := marketplacePollVote_ok ok
      rw [ballot, ok]
      by_cases here : target = pollId
      · subst here
        rw [if_pos ⟨rfl, rfl⟩, Option.toList_some]
        -- The voter is normalized twice on the way to the row.
        have voted := tallied.vote (normKey voterPubkey) ⟨id, optionIndex, now⟩
        rwa [Library.Text.normKey_normKey] at voted
      · rw [if_neg fun both => here both.1, Option.toList_none, List.append_nil]
        exact tallied.vote_elsewhere here _ _

theorem tallied_run (calls : List Call) :
    Tallied pollId (run step db calls) (ballots ++ accepted pollId db calls) := by
  induction calls generalizing db ballots with
  | nil =>
    rw [accepted, List.append_nil]
    exact tallied
  | cons call rest ih =>
    rw [accepted, ← List.append_assoc]
    exact ih (tallied.step call)

end

section

variable {poll : PollRow} (found : db.polls.find? pollId = some poll)
include found

theorem find?_step (call : Call) :
    (step db call).polls.find? pollId = some poll ∨
      (step db call).polls.find? pollId = some { poll with closed := true } := by
  rcases Fallible.error_or_ok (answer db call) with ⟨failure, failed⟩ | ⟨after, ok⟩
  · rw [step_of_error failed]
    exact .inl found
  · rw [step_of_ok ok]
    cases call with
    | vote =>
      obtain ⟨-, -, rfl⟩ := marketplacePollVote_ok ok
      exact .inl found
    | close signer target userPubkey =>
      obtain rfl := marketplacePollClose_ok ok
      rw [setClosed, Table.find?_modify, found, Option.map_some]
      split
      · exact .inr rfl
      · exact .inl rfl

theorem find?_run (calls : List Call) :
    ∃ closed, (run step db calls).polls.find? pollId = some { poll with closed := poll.closed || closed } := by
  induction calls generalizing db poll with
  | nil => exact ⟨false, by rw [Bool.or_false]; exact found⟩
  | cons call rest ih =>
    rcases find?_step found call with same | now
    · exact ih same
    · obtain ⟨_, after⟩ := ih now
      refine ⟨true, ?_⟩
      rw [Library.Runs.run_cons, Bool.or_true]
      simpa using after

theorem ballot_of_closed (closed : poll.closed = true) (call : Call) : ballot pollId db call = none := by
  unfold ballot
  cases call with
  | close => rfl
  | vote signer now id target voterPubkey optionIndex =>
    refine if_neg fun both => ?_
    obtain ⟨rfl, ok⟩ := both
    rcases Fallible.error_or_ok (answer db (.vote signer now id target voterPubkey optionIndex)) with
      ⟨failure, failed⟩ | ⟨after, accepts⟩
    · simp [failed, Except.isOk, Except.toBool] at ok
    · obtain ⟨-, ⟨other, same, opened⟩, -⟩ := marketplacePollVote_ok accepts
      obtain rfl := Option.some.inj (found.symm.trans same)
      exact absurd (closed.symm.trans opened) (by decide)

theorem accepted_of_closed (closed : poll.closed = true) (calls : List Call) : accepted pollId db calls = [] := by
  induction calls generalizing db poll with
  | nil => rfl
  | cons call rest ih =>
    rw [accepted, ballot_of_closed found closed, Option.toList_none, List.nil_append]
    obtain same | now := find?_step found call
    · exact ih same closed
    · exact ih now rfl

/-- A poll that was closed refuses every later vote. -/
theorem accepted_of_close {signer : Option Key} {userPubkey : String}
    (ok : (answer db (.close signer pollId userPubkey)).isOk = true) (calls : List Call) :
    accepted pollId (step db (.close signer pollId userPubkey)) calls = [] := by
  obtain ⟨failure, failed⟩ | ⟨after, closes⟩ := Fallible.error_or_ok (answer db (.close signer pollId userPubkey))
  · simp [failed, Except.isOk, Except.toBool] at ok
  · rw [step_of_ok closes, marketplacePollClose_ok closes]
    have shut : (setClosed db pollId true).polls.find? pollId = some { poll with closed := true } := by
      rw [setClosed, Table.find?_modify, found, Option.map_some, if_pos rfl]
    exact accepted_of_closed shut rfl calls

end

def votersOf (db : PollDb) (pollId : String) (q : Int → Bool) : List String :=
  (db.votes.rows.filter fun row => decide (row.1.1 = pollId) && q row.2.optionId).map fun row => row.1.2

theorem mem_votersOf {q : Int → Bool} {voter : String} :
    voter ∈ votersOf db pollId q ↔ ((db.votes.find? (pollId, voter)).map PollVoteRow.optionId).any q = true := by
  rw [votersOf, List.mem_map]
  constructor
  · rintro ⟨⟨⟨target, _⟩, row⟩, member, rfl⟩
    obtain ⟨inside, both⟩ := List.mem_filter.mp member
    obtain ⟨same, counts⟩ : target = pollId ∧ q row.optionId = true := by simpa using both
    subst same
    rw [Table.find?_eq_some.mpr inside]
    exact counts
  · intro counts
    cases found : db.votes.find? (pollId, voter) with
    | none => simp [found] at counts
    | some row =>
      refine ⟨((pollId, voter), row), List.mem_filter.mpr ⟨Table.find?_eq_some.mp found, ?_⟩, rfl⟩
      simpa [found] using counts

theorem nodup_votersOf (q : Int → Bool) : (votersOf db pollId q).Nodup := by
  refine List.Nodup.map_on ?_ ?_
  · -- One poll and one voter are one key of the table, and its keys are distinct.
    rintro ⟨⟨target, voter⟩, row⟩ one ⟨⟨target', voter'⟩, row'⟩ two same
    obtain ⟨inside, here⟩ := List.mem_filter.mp one
    obtain ⟨inside', here'⟩ := List.mem_filter.mp two
    have keys : (target, voter) = (target', voter') := by
      obtain rfl : voter = voter' := same
      have first : target = pollId := by simpa using (Bool.and_eq_true_iff.mp here).1
      have second : target' = pollId := by simpa using (Bool.and_eq_true_iff.mp here').1
      rw [first, second]
    exact List.inj_on_of_nodup_map db.votes.nodup inside inside' keys
  · exact (List.Nodup.of_map _ db.votes.nodup).filter _

theorem lastOption_some {ballots : List (String × Int)} {voter : String} {option : Int}
    (last : lastOption ballots voter = some option) : voter ∈ ballots.map Prod.fst := by
  by_contra absent
  have missing : lastOption ballots voter = none := by
    refine Table.lookup_eq_none.mpr fun member => absent ?_
    simpa using member
  rw [missing] at last
  cases last

theorem Tallied.countP {ballots : List (String × Int)} (tallied : Tallied pollId db ballots) (q : Int → Bool) :
    (optionIds db pollId).countP q = ((voters ballots).filter fun voter => (lastOption ballots voter).any q).length := by
  have stored : (optionIds db pollId).countP q = (votersOf db pollId q).length := by
    rw [optionIds, List.countP_map, List.countP_filter, List.countP_eq_length_filter, votersOf, List.length_map]
    simp only [Function.comp_apply, Bool.and_comm]
  rw [stored]
  -- Two lists without repetition and with the same members have the same length.
  refine List.Perm.length_eq ((List.perm_ext_iff_of_nodup (nodup_votersOf q) ((List.nodup_dedup _).filter _)).mpr ?_)
  intro voter
  rw [mem_votersOf, tallied voter, List.mem_filter, List.mem_dedup]
  refine ⟨fun counts => ⟨?_, counts⟩, And.right⟩
  cases last : lastOption ballots voter with
  | none => simp [last] at counts
  | some option => exact lastOption_some last

end Step

/-- The voters whose last accepted vote names an option with this property. -/
def votersFor (ballots : List (String × Int)) (p : Int → Prop) [DecidablePred p] : Nat :=
  ((voters ballots).filter fun voter => (lastOption ballots voter).any fun option => decide (p option)).length

/-- From a poll without votes on, the tally counts each voter once, for the option of the last
accepted vote and only if the poll has it, and no vote is accepted after one has closed the poll. -/
theorem marketplacePollGet_tally (start : PollDb) (pollId : String) (poll : PollRow) (options : List String)
    (stored : start.polls.find? pollId = some poll) (parsed : JsonStrings.fromJson poll.options = some options)
    (unvoted : ∀ voter, start.votes.find? (pollId, voter) = none) (calls : List Call) :
    (∃ view, marketplacePollGet (run step start calls) pollId = .ok view ∧
      view.votes = ((List.range options.length).map fun i : Nat =>
        votersFor (accepted pollId start calls) fun option => option = i) ∧
      view.votes.sum = votersFor (accepted pollId start calls) fun option => Listed options.length option) ∧
      (∀ signer userPubkey, (answer (run step start calls) (.close signer pollId userPubkey)).isOk = true →
        ∀ later, accepted pollId (run step start (calls ++ [.close signer pollId userPubkey])) later = []) ∧
      (poll.closed = true → accepted pollId start calls = []) := by
  obtain ⟨closed, kept⟩ := find?_run stored calls
  refine ⟨?_, ?_, fun shut => accepted_of_closed stored shut calls⟩
  · have initial : Tallied pollId start [] := by
      intro voter
      rw [unvoted voter]
      rfl
    have tallied := tallied_run initial calls
    rw [List.nil_append] at tallied
    refine ⟨⟨pollId, poll.question,
      placeVotes (List.replicate options.length 0) (voteGroups (run step start calls) pollId)⟩,
      ?_, ?_, ?_⟩
    · rw [marketplacePollGet, getPoll, kept]
      simp only [parsed]
    · rw [placeVotes_voteGroups]
      refine List.map_congr_left fun i _ => ?_
      rw [List.count_eq_countP, votersFor, ← tallied.countP]
      rfl
    · rw [placeVotes_voteGroups, sum_counts, tallied.countP]
      rfl
  · intro signer userPubkey ok later
    rw [Runs.run_append]
    exact accepted_of_close kept ok later

def owner : Key := Vector.replicate 32 0x11

def ownerHex : String := toHex owner

def dayPoll : PollRow := ⟨ownerHex, "q?", "[\"a\",\"b\"]", 99, false, 13⟩

def dayPollDb : PollDb where
  polls := Table.empty.upsert "p" dayPoll id
  votes := .empty

/-- A vote for a sixth option, a hundred seconds after the poll expired. -/
def lateVote : Call := .vote (some owner) 200 "v1" "p" ownerHex 5

theorem marketplacePollVote_uncounted :
    (ballot "p" dayPollDb lateVote).isSome ∧ dayPoll.expiresAt < 200 ∧
      (marketplacePollGet (run step dayPollDb [lateVote]) "p").map (fun view => view.votes.sum) ≠
        .ok (voters (accepted "p" dayPollDb [lateVote])).length := by
  decide +kernel

/-- A vote that is changed, one that stays, and one for an option that the poll has not. -/
def dayVotes (one two three : Key) : List Call :=
  [.vote (some one) 20 "v1" "p" (toHex one) 0, .vote (some two) 21 "v2" "p" (toHex two) 1,
    .vote (some one) 22 "v3" "p" (toHex one) 1, .vote (some three) 23 "v4" "p" (toHex three) 5]

theorem accepted_dayVotes {one two three : Key} {db : PollDb} {poll : PollRow} (stored : getPoll db "p" = some poll)
    (opened : poll.closed = false) (owned : poll.pubkey = toHex one) :
    accepted "p" db (dayVotes one two three) = [(toHex one, 0), (toHex two, 1), (toHex one, 1), (toHex three, 5)] ∧
      (answer (run step db (dayVotes one two three)) (.close (some one) "p" (toHex one))).isOk = true := by
  have kept (db : PollDb) (voter : String) (v : PollVoteRow) : getPoll (vote db "p" voter v) "p" = getPoll db "p" := rfl
  have same (key : Key) : normKey (toHex key) = toHex key := Text.normKey_hexEncode _
  simp [dayVotes, accepted, ballot, run, step, answer, marketplacePollVote, marketplacePollClose, requireIdentity, same,
    stored, kept, opened, owned, Except.mapError, Except.isOk, Except.toBool, Except.toOption, Fallible.ok_bind,
    eqIgnoreAsciiCase]

theorem votersFor_day {a b c : String} (ab : a ≠ b) (ac : a ≠ c) (bc : b ≠ c) :
    ((List.range 2).map fun i : Nat => votersFor [(a, 0), (b, 1), (a, 1), (c, 5)] fun option => option = i) = [0, 2] := by
  have ne {x y : String} (differ : x ≠ y) : (x == y) = false ∧ (y == x) = false := by simp [differ, differ.symm]
  simp [votersFor, voters, lastOption, List.range_succ, List.lookup_cons, List.filter_cons, ab, ac, bc, ab.symm, ne ab,
    ne ac, ne bc]

theorem marketplacePollGet_dayPoll :
    let votes := dayVotes owner (.replicate 32 2) (.replicate 32 3)
    (accepted "p" dayPollDb votes).length = 4 ∧
      (∃ view, marketplacePollGet (run step dayPollDb votes) "p" = .ok view ∧ view.votes = [0, 2]) ∧
        accepted "p" (run step dayPollDb (votes ++ [.close (some owner) "p" ownerHex])) [lateVote] = [] := by
  obtain ⟨taken, closes⟩ :=
    @accepted_dayVotes owner (.replicate 32 2) (.replicate 32 3) dayPollDb dayPoll rfl rfl rfl
  have apart {first second : Key} (differ : first ≠ second) : toHex first ≠ toHex second :=
    fun same => differ (Vector.toList_inj.mp (Text.hexEncode_inj same))
  intro votes
  obtain ⟨⟨view, shown, counted, -⟩, closed, -⟩ := marketplacePollGet_tally dayPollDb "p" dayPoll ["a", "b"] rfl
    (by decide) (fun _ => rfl) votes
  rw [taken] at counted ⊢
  exact ⟨rfl, ⟨view, shown, counted.trans (votersFor_day (apart (by decide)) (apart (by decide)) (apart (by decide)))⟩,
    closed (some owner) ownerHex closes _⟩

end Soshal.Bridge.Polls
