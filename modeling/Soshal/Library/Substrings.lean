import Soshal.Library.Text

/-! Parts of a text: the first place where one stands, all places replaced, and the lines. -/

set_option autoImplicit false

namespace Soshal.Library.Substrings

/-- What stands before and behind the first place of a part. -/
def cutText (part : List Char) : List Char → Option (List Char × List Char)
  | [] => if part = [] then some ([], []) else none
  | c :: rest =>
    if part.isPrefixOf (c :: rest) then some ([], (c :: rest).drop part.length)
    else (cutText part rest).map fun (before, behind) => (c :: before, behind)

/-- `str::replace`, for a part that is not empty. -/
def replaceAll (part new : List Char) : Nat → List Char → List Char
  | 0, cs => cs
  | fuel + 1, cs =>
    match cutText part cs with
    | none => cs
    | some (before, behind) => before ++ new ++ replaceAll part new fuel behind

def replace (part new cs : List Char) : List Char := replaceAll part new cs.length cs

theorem cutText_eq_some {part cs before behind : List Char} (found : cutText part cs = some (before, behind)) :
    cs = before ++ part ++ behind := by
  induction cs generalizing before with
  | nil =>
    unfold cutText at found
    split_ifs at found with empty
    cases found
    simp [empty]
  | cons c rest ih =>
    unfold cutText at found
    split_ifs at found with here
    · cases found
      obtain ⟨behind, split⟩ := List.isPrefixOf_iff_prefix.mp here
      rw [← split, List.drop_left]
      rfl
    · obtain ⟨⟨front, tail⟩, later, same⟩ := Option.map_eq_some_iff.mp found
      cases same
      rw [ih later]
      rfl

theorem cutText_append {part front : List Char} (other : ∀ c ∈ front, part.head? ≠ some c) (nonempty : part ≠ [])
    (behind : List Char) : cutText part (front ++ part ++ behind) = some (front, behind) := by
  induction front with
  | nil =>
    cases part with
    | nil => exact absurd rfl nonempty
    | cons d part =>
      have here : (d :: part).isPrefixOf (d :: (part ++ behind)) = true :=
        List.isPrefixOf_iff_prefix.mpr (List.prefix_append (d :: part) behind)
      change cutText (d :: part) (d :: (part ++ behind)) = _
      rw [cutText, if_pos here]
      have behindIt : ((d :: part) ++ behind).drop (d :: part).length = behind := List.drop_left
      exact congrArg (fun tail => some (([] : List Char), tail)) behindIt
  | cons c front ih =>
    have elsewhere : ¬ part.isPrefixOf (c :: (front ++ part ++ behind)) = true := by
      intro here
      cases part with
      | nil => exact nonempty rfl
      | cons d part =>
        have same : d = c := (List.cons_prefix_cons.mp (List.isPrefixOf_iff_prefix.mp here)).1
        exact other c List.mem_cons_self (congrArg some same)
    rw [List.cons_append, List.cons_append, cutText, if_neg elsewhere,
      ih fun d member => other d (List.mem_cons_of_mem _ member)]
    rfl

theorem replace_end {part front : List Char} (other : ∀ c ∈ front, part.head? ≠ some c) (nonempty : part ≠ [])
    (new : List Char) : replace part new (front ++ part) = front ++ new := by
  have found := cutText_append other nonempty []
  rw [List.append_nil] at found
  have long : (front ++ part).length ≠ 0 := by simp [nonempty]
  obtain ⟨fuel, same⟩ := Nat.exists_eq_succ_of_ne_zero long
  have rest : replaceAll part new fuel [] = [] := by
    cases fuel with
    | zero => rfl
    | succ fuel => simp [replaceAll, cutText, nonempty]
  rw [replace, same, replaceAll, found]
  simp [rest]

def stripCarriageReturn (cs : List Char) : List Char := if cs.getLast? = some '\r' then cs.dropLast else cs

/-- `str::lines`: only lines with an end lose a carriage return. -/
def lines (cs : List Char) : List (List Char) :=
  let parts := cs.splitOn '\n'
  parts.dropLast.map stripCarriageReturn ++ (parts.getLast?.filter (· ≠ [])).toList

/-- Lines with a carriage return and a line feed between them. -/
def join : List (List Char) → List Char
  | [] => []
  | [line] => line
  | line :: rest => line ++ '\r' :: '\n' :: join rest

theorem lines_append (line rest : List Char) (plain : '\n' ∉ line) :
    lines (line ++ '\n' :: rest) = stripCarriageReturn line :: lines rest := by
  have cut : (line ++ '\n' :: rest).splitOn '\n' = line :: rest.splitOn '\n' :=
    List.splitOn_append_cons_self_of_not_mem plain rest
  unfold lines
  rw [cut]
  have more := List.splitOn_ne_nil '\n' rest
  cases parts : rest.splitOn '\n' with
  | nil => exact absurd parts more
  | cons first later => rfl

theorem lines_of_plain {line : List Char} (plain : '\n' ∉ line) : lines line = if line = [] then [] else [line] := by
  rw [lines, List.splitOn_eq_singleton plain]
  split_ifs with empty
  · simp [empty]
  · simp [empty, Option.filter]

theorem mem_lines_join {ls : List (List Char)} (plain : ∀ line ∈ ls, '\n' ∉ line) {line : List Char}
    (nonempty : line ≠ []) : line ∈ lines (join ls) ↔ line ∈ ls := by
  induction ls with
  | nil => simp [join, lines_of_plain]
  | cons first rest ih =>
    have later := ih fun other member => plain other (List.mem_cons_of_mem _ member)
    have mine := plain first List.mem_cons_self
    cases rest with
    | nil =>
      rw [join, lines_of_plain mine]
      split_ifs with empty
      · simp [empty, nonempty]
      · rfl
    | cons second rest =>
      have split : join (first :: second :: rest) = (first ++ ['\r']) ++ '\n' :: join (second :: rest) := by
        simp [join]
      have ended : '\n' ∉ first ++ ['\r'] := by simp [mine]
      rw [split, lines_append _ _ ended, List.mem_cons, List.mem_cons, later]
      simp [stripCarriageReturn]

theorem plain_stripCarriageReturn {line : List Char} (plain : '\n' ∉ line) : '\n' ∉ stripCarriageReturn line := by
  unfold stripCarriageReturn
  split_ifs
  · exact fun member => plain (List.mem_of_mem_dropLast member)
  · exact plain

theorem plain_of_mem_lines {cs line : List Char} (member : line ∈ lines cs) : '\n' ∉ line := by
  induction length : cs.length using Nat.strongRecOn generalizing cs with
  | ind n ih =>
    by_cases broken : '\n' ∈ cs
    · obtain ⟨first, rest, rfl, plain⟩ := List.eq_append_cons_of_mem broken
      rw [lines_append first rest plain] at member
      obtain rfl | later := List.mem_cons.mp member
      · exact plain_stripCarriageReturn plain
      · refine ih rest.length ?_ later rfl
        rw [← length, List.length_append, List.length_cons]
        omega
    · rw [lines_of_plain broken] at member
      split_ifs at member
      · cases member
      · rw [List.mem_singleton.mp member]
        exact broken

end Soshal.Library.Substrings
