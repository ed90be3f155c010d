import Soshal.Library.CharBoundaries
import Soshal.Library.Nesting

/-! Styled spans and metadata out of a stream of markdown events.

The parser is cut off at a byte position. What a text lies in is kept in flags,
one for links, one for what is bold and one for emphasis.
-/

set_option autoImplicit false

namespace Soshal.Content

open Library
open Library.CharBoundaries (splitAtByte)
open Library.Nesting (Mark LatestOpen flag flagStep)
open Library.Text (byteLen trim)

inductive SpanType where
  | text
  | mention
  | hashtag
  | link
  | emoji
  | bold
  | italic
  | codeInline
  | codeBlock
  deriving DecidableEq

structure ParsedSpan where
  text : String
  spanType : SpanType
  target : Option String
  deriving DecidableEq

namespace Markdown

inductive HeadingLevel where
  | h1
  | h2
  | h3
  | h4
  | h5
  | h6
  deriving DecidableEq

/-- The elements that neither function looks at. -/
inductive Container where
  | paragraph
  | blockQuote
  | codeBlock
  | htmlBlock
  | list
  | item
  | footnoteDefinition
  | definitionList
  | definitionListTitle
  | definitionListDefinition
  | table
  | tableHead
  | tableRow
  | tableCell
  | strikethrough
  | superscript
  | subscript
  | metadataBlock
  deriving DecidableEq

inductive Tag where
  | strong
  | emphasis
  | link (destUrl : String)
  | image (destUrl : String)
  | heading (level : HeadingLevel)
  | container (container : Container)

inductive TagEnd where
  | strong
  | emphasis
  | link
  | image
  | heading (level : HeadingLevel)
  | container (container : Container)
  deriving DecidableEq

inductive Event where
  | start (tag : Tag)
  | end_ (tag : TagEnd)
  | text (text : String)
  | code (text : String)
  | softBreak
  | hardBreak
  /-- Math, HTML, footnote references, rules and task list markers. -/
  | other

def Tag.toEnd : Tag → TagEnd
  | .strong => .strong
  | .emphasis => .emphasis
  | .link _ => .link
  | .image _ => .image
  | .heading level => .heading level
  | .container kind => .container kind

structure Options where
  tables : Bool
  strikethrough : Bool
  tasklists : Bool

def maxMarkdownInputBytes : Nat := 256 * 1024

/-- The part of the input that is parsed. There is none when the cut is inside of a character. -/
def slice (input : String) (maxBytes : Nat) : Option String :=
  let limit := min maxBytes maxMarkdownInputBytes
  if byteLen input > limit then (splitAtByte input.toList limit).map fun (front, _) => String.ofList front
  else some input

structure SpanState where
  spans : List ParsedSpan := []
  currentLink : Option String := none
  isBold : Bool := false
  isItalic : Bool := false

def SpanState.push (st : SpanState) (span : ParsedSpan) : SpanState := { st with spans := st.spans ++ [span] }

def SpanState.typeOf (st : SpanState) : SpanType :=
  if st.currentLink.isSome then .link else if st.isBold then .bold else if st.isItalic then .italic else .text

def spanEvent (st : SpanState) : Event → SpanState
  | .start .strong => { st with isBold := true }
  | .end_ .strong => { st with isBold := false }
  | .start .emphasis => { st with isItalic := true }
  | .end_ .emphasis => { st with isItalic := false }
  | .start (.link destUrl) => { st with currentLink := some destUrl }
  | .end_ .link => { st with currentLink := none }
  | .start (.heading _) => { st with isBold := true }
  | .end_ (.heading _) => { st with isBold := false }
  | .code text => st.push ⟨text, .codeInline, none⟩
  | .text text => st.push ⟨text, st.typeOf, st.currentLink⟩
  | .softBreak => st.push ⟨"\n", .text, none⟩
  | .hardBreak => st.push ⟨"\n", .text, none⟩
  | _ => st

variable (events : List Event) (spans : List ParsedSpan)

def spanState : SpanState := events.foldl spanEvent {}

def spanOptions : Options := ⟨true, true, true⟩

def parseMarkdownSpans (parser : Options → String → List Event) (input : String) (maxBytes : Nat) :
    Option (List ParsedSpan) :=
  (slice input maxBytes).map fun slice => (spanState (parser spanOptions slice)).spans

structure MarkdownMetadata where
  links : List String := []
  images : List String := []
  headings : List (Nat × String) := []
  plainExcerpt : String := ""
  deriving DecidableEq

structure MetadataState where
  metadata : MarkdownMetadata := {}
  currentHeadingLevel : Option Nat := none
  currentHeadingText : String := ""
  excerptLength : Nat := 0

def maxExcerptChars : Nat := 280

def HeadingLevel.number : HeadingLevel → Nat
  | .h1 => 1
  | .h2 => 2
  | .h3 => 3
  | .h4 => 4
  | .h5 => 5
  | .h6 => 6

def MetadataState.addExcerpt (st : MetadataState) (text : String) : MetadataState :=
  if st.excerptLength < maxExcerptChars then
    let toAdd := text.toList.take (maxExcerptChars - st.excerptLength)
    { st with
      excerptLength := st.excerptLength + toAdd.length
      metadata := { st.metadata with plainExcerpt := st.metadata.plainExcerpt ++ String.ofList toAdd } }
  else st

def metadataEvent (st : MetadataState) : Event → MetadataState
  | .start (.link destUrl) => { st with metadata := { st.metadata with links := st.metadata.links ++ [destUrl] } }
  | .start (.image destUrl) => { st with metadata := { st.metadata with images := st.metadata.images ++ [destUrl] } }
  | .start (.heading level) => { st with currentHeadingLevel := some level.number, currentHeadingText := "" }
  | .end_ (.heading _) =>
    match st.currentHeadingLevel with
    | some lvl =>
      { st with
        currentHeadingLevel := none
        metadata := { st.metadata with headings := st.metadata.headings ++ [(lvl, trim st.currentHeadingText)] } }
    | none => st
  | .text text =>
    if st.currentHeadingLevel.isSome then { st with currentHeadingText := st.currentHeadingText ++ text }
    else st.addExcerpt text
  | .code text => st.addExcerpt text
  | _ => st

def metadataOptions : Options := ⟨true, false, false⟩

def extractMarkdownMetadata (parser : Options → String → List Event) (input : String) (maxBytes : Nat) :
    Option MarkdownMetadata :=
  (slice input maxBytes).map fun slice => ((parser metadataOptions slice).foldl metadataEvent {}).metadata

def Event.mark : Event → Mark TagEnd
  | .start tag => .opening tag.toEnd
  | .end_ tag => .closing tag
  | _ => .plain

def Balanced : Prop := Nesting.Balanced (events.map Event.mark)

def enclosing : List TagEnd := (Nesting.run [] (events.map Event.mark)).getD []

/-- What a text can be styled by, the strongest first. -/
inductive Style where
  | link
  | bold
  | italic

def Style.element : Style → TagEnd → Bool
  | .link, .link => true
  | .bold, .strong => true
  | .bold, .heading _ => true
  | .italic, .emphasis => true
  | _, _ => false

def Style.spanType : Style → SpanType
  | .link => .link
  | .bold => .bold
  | .italic => .italic

def strongestOf (held : Style → Bool) : Option Style :=
  if held .link then some .link else if held .bold then some .bold else if held .italic then some .italic else none

def typeFrom (held : Style → Bool) : SpanType := (strongestOf held).elim .text Style.spanType

def strongest (elements : List TagEnd) : Option Style := strongestOf fun style => elements.any style.element

def nestedType (elements : List TagEnd) : SpanType := typeFrom fun style => elements.any style.element

def Event.givesSpan : Event → Bool
  | .code _ => true
  | .text _ => true
  | .softBreak => true
  | .hardBreak => true
  | _ => false

def TypedByNesting : Prop :=
  ∀ before text after, events = before ++ .text text :: after →
    ∃ span, spans[before.countP Event.givesSpan]? = some span ∧ span.text = text ∧
      span.spanType = nestedType (enclosing before)

/-- In front of each text none of the elements that would style it was closed since the latest of them opened. -/
def Undisturbed : Prop :=
  ∀ before text after, events = before ++ .text text :: after →
    ∀ style, strongest (enclosing before) = some style → LatestOpen style.element (before.map Event.mark)

theorem spanEvent_flags (st : SpanState) (event : Event) :
    (spanEvent st event).currentLink.isSome = flagStep Style.link.element st.currentLink.isSome event.mark ∧
      (spanEvent st event).isBold = flagStep Style.bold.element st.isBold event.mark ∧
      (spanEvent st event).isItalic = flagStep Style.italic.element st.isItalic event.mark := by
  cases event with
  | start tag => cases tag <;> exact ⟨rfl, rfl, rfl⟩
  | end_ tag => cases tag <;> exact ⟨rfl, rfl, rfl⟩
  | _ => exact ⟨rfl, rfl, rfl⟩

theorem spanState_flags : (spanState events).currentLink.isSome = flag Style.link.element (events.map Event.mark) ∧
      (spanState events).isBold = flag Style.bold.element (events.map Event.mark) ∧
      (spanState events).isItalic = flag Style.italic.element (events.map Event.mark) := by
  induction events using List.reverseRecOn with
  | nil => exact ⟨rfl, rfl, rfl⟩
  | append_singleton events event ih =>
    obtain ⟨link, bold, italic⟩ := spanEvent_flags (spanState events) event
    simp only [spanState, flag, List.map_append, List.map_cons, List.map_nil, List.foldl_append, List.foldl_cons,
      List.foldl_nil] at *
    rw [link, bold, italic, ih.1, ih.2.1, ih.2.2]
    exact ⟨rfl, rfl, rfl⟩

theorem length_spans : (spanState events).spans.length = events.countP Event.givesSpan := by
  induction events using List.reverseRecOn with
  | nil => rfl
  | append_singleton events event ih =>
    rw [List.countP_append, ← ih, spanState, List.foldl_append]
    cases event with
    | start tag => cases tag <;> rfl
    | end_ tag => cases tag <;> rfl
    | other => rfl
    | _ => exact List.length_append

theorem spans_prefix (st : SpanState) (events : List Event) : st.spans <+: (events.foldl spanEvent st).spans := by
  induction events generalizing st with
  | nil => exact List.prefix_refl _
  | cons event rest ih =>
    refine List.IsPrefix.trans ?_ (ih (spanEvent st event))
    cases event with
    | start tag => cases tag <;> exact List.prefix_refl _
    | end_ tag => cases tag <;> exact List.prefix_refl _
    | other => exact List.prefix_refl _
    | _ => exact List.prefix_append _ _

theorem getElem?_spans (before : List Event) (text : String) (after : List Event) :
    (spanState (before ++ .text text :: after)).spans[before.countP Event.givesSpan]? =
      some ⟨text, (spanState before).typeOf, (spanState before).currentLink⟩ := by
  have later := spans_prefix (spanEvent (spanState before) (.text text)) after
  obtain ⟨rest, whole⟩ := later
  have folded : spanState (before ++ .text text :: after) =
      after.foldl spanEvent (spanEvent (spanState before) (.text text)) := by
    rw [spanState, List.foldl_append, List.foldl_cons, spanState]
  rw [folded, ← whole, ← length_spans]
  simp [spanEvent, SpanState.push]

/-- Flags that claim too little give the same type when the strongest style is not among what they miss. -/
theorem typeFrom_eq_iff {flags held : Style → Bool} (sound : ∀ style, flags style = true → held style = true) :
    typeFrom flags = typeFrom held ↔ ∀ style, strongestOf held = some style → flags style = true := by
  have link := sound .link
  have bold := sound .bold
  have italic := sound .italic
  unfold typeFrom strongestOf
  -- From the strongest style down: a flag below the one that holds makes no difference.
  cases l : held .link with
  | true => cases l' : flags .link <;> cases flags .bold <;> cases flags .italic <;> simp [l', Style.spanType]
  | false =>
    rw [Bool.eq_false_iff.mpr fun set => absurd (link set) (by simp [l])]
    cases b : held .bold with
    | true => cases b' : flags .bold <;> cases flags .italic <;> simp [b', Style.spanType]
    | false =>
      rw [Bool.eq_false_iff.mpr fun set => absurd (bold set) (by simp [b])]
      cases i : held .italic with
      | true => cases i' : flags .italic <;> simp [i', Style.spanType]
      | false =>
        rw [Bool.eq_false_iff.mpr fun set => absurd (italic set) (by simp [i])]
        simp

theorem typeOf_eq : (spanState events).typeOf = typeFrom fun style => flag style.element (events.map Event.mark) := by
  obtain ⟨link, bold, italic⟩ := spanState_flags events
  rw [SpanState.typeOf, link, bold, italic, typeFrom, strongestOf]
  split
  · rfl
  · split
    · rfl
    · split <;> rfl

theorem typeOf_iff {before : List Event} {stack : List TagEnd}
    (opened : Nesting.run [] (before.map Event.mark) = some stack) :
    (spanState before).typeOf = nestedType stack ↔
      ∀ style, strongest stack = some style → LatestOpen style.element (before.map Event.mark) := by
  have sound : ∀ style : Style, flag style.element (before.map Event.mark) = true → stack.any style.element = true := by
    intro style set
    obtain ⟨k, inside, kind⟩ := Nesting.exists_open_of_flag opened set
    exact List.any_eq_true.mpr ⟨k, inside, kind⟩
  rw [typeOf_eq, nestedType, typeFrom_eq_iff sound, strongest]
  simp only [Nesting.flag_iff]

theorem typedByNesting_iff {events : List Event} (balanced : Balanced events) :
    TypedByNesting events (spanState events).spans ↔ Undisturbed events := by
  refine forall_congr' fun before => forall_congr' fun text => forall_congr' fun after => forall_congr' fun whole => ?_
  subst whole
  have marks : (before ++ .text text :: after).map Event.mark =
      before.map Event.mark ++ (Event.text text :: after).map Event.mark :=
    List.map_append
  rw [Balanced, marks] at balanced
  -- Any part of a balanced stream from its start leaves a stack of open elements.
  obtain ⟨stack, opened⟩ := balanced.open_at
  have inside : enclosing before = stack := by rw [enclosing, opened, Option.getD_some]
  rw [getElem?_spans, inside, ← typeOf_iff opened]
  constructor
  · rintro ⟨span, found, -, typed⟩
    cases found
    exact typed
  · intro typed
    exact ⟨_, rfl, rfl, typed⟩

theorem slice_eq_some {input s : String} {maxBytes : Nat} :
    slice input maxBytes = some s ↔
      (∃ rest, input = s ++ rest) ∧ byteLen s = min (byteLen input) (min maxBytes maxMarkdownInputBytes) := by
  unfold slice
  generalize min maxBytes maxMarkdownInputBytes = limit
  dsimp only
  split
  · rename_i long
    rw [Nat.min_eq_right (by omega), Option.map_eq_some_iff]
    constructor
    · rintro ⟨⟨front, back⟩, cut, rfl⟩
      obtain ⟨joined, size⟩ := CharBoundaries.splitAtByte_eq_some.mp cut
      refine ⟨⟨String.ofList back, ?_⟩, by rw [CharBoundaries.byteLen_ofList, size]⟩
      rw [← String.ofList_append, joined, String.ofList_toList]
    · rintro ⟨⟨rest, rfl⟩, size⟩
      refine ⟨(s.toList, rest.toList), CharBoundaries.splitAtByte_eq_some.mpr ⟨?_, ?_⟩, String.ofList_toList⟩
      · exact String.toList_append.symm
      · rw [CharBoundaries.byteSize_toList, size]
  · rename_i short
    rw [Nat.min_eq_left (by omega), Option.some.injEq]
    constructor
    · rintro rfl
      exact ⟨⟨"", String.append_empty.symm⟩, rfl⟩
    · rintro ⟨⟨rest, rfl⟩, size⟩
      rw [byteLen, byteLen, String.utf8ByteSize_append] at size
      have empty : rest = "" := String.utf8ByteSize_eq_zero_iff.mp (by omega)
      rw [empty, String.append_empty]

/-- Both functions return, each text styled by what it lies in, when the cut is between characters and no flag is
lost. -/
theorem markdown_iff {parser : Options → String → List Event}
    (balanced : ∀ options text, Balanced (parser options text))
    (input : String) (maxBytes : Nat) :
    (∃ s rest spans metadata, slice input maxBytes = some s ∧ input = s ++ rest ∧
        parseMarkdownSpans parser input maxBytes = some spans ∧
        extractMarkdownMetadata parser input maxBytes = some metadata ∧ TypedByNesting (parser spanOptions s) spans) ↔
      ∃ s rest, input = s ++ rest ∧ byteLen s = min (byteLen input) (min maxBytes maxMarkdownInputBytes) ∧
        Undisturbed (parser spanOptions s) := by
  constructor
  · rintro ⟨s, rest, spans, metadata, cut, joined, parsed, -, typed⟩
    rw [parseMarkdownSpans, cut, Option.map_some, Option.some.injEq] at parsed
    subst parsed
    exact ⟨s, rest, joined, (slice_eq_some.mp cut).2, (typedByNesting_iff (balanced _ _)).mp typed⟩
  · rintro ⟨s, rest, joined, size, undisturbed⟩
    have cut : slice input maxBytes = some s := slice_eq_some.mpr ⟨⟨rest, joined⟩, size⟩
    have parsed : parseMarkdownSpans parser input maxBytes = some (spanState (parser spanOptions s)).spans := by
      rw [parseMarkdownSpans, cut, Option.map_some]
    obtain ⟨metadata, extracted⟩ : ∃ metadata, extractMarkdownMetadata parser input maxBytes = some metadata := by
      rw [extractMarkdownMetadata, cut]
      exact ⟨_, rfl⟩
    exact ⟨s, rest, _, metadata, cut, joined, parsed, extracted, (typedByNesting_iff (balanced _ _)).mpr undisturbed⟩

def strongParser (_ : Options) (text : String) : List Event :=
  if text = "**b**" then
    [.start (.container .paragraph), .start .strong, .text "b", .end_ .strong, .end_ (.container .paragraph)]
  else []

theorem markdown_strong :
    ∃ s rest spans metadata, slice "**b**" 100 = some s ∧ "**b**" = s ++ rest ∧
      parseMarkdownSpans strongParser "**b**" 100 = some spans ∧
      extractMarkdownMetadata strongParser "**b**" 100 = some metadata ∧
      TypedByNesting (strongParser spanOptions s) spans := by
  have balanced : ∀ options text, Balanced (strongParser options text) := by
    intro options text
    unfold strongParser
    split
    · rfl
    · rfl
  refine (markdown_iff balanced "**b**" 100).mpr ⟨"**b**", "", rfl, by decide, ?_⟩
  intro before text after whole style found
  rw [strongParser, if_pos rfl] at whole
  have place : before = [.start (.container .paragraph), .start .strong] := by
    rcases before with _ | ⟨a, _ | ⟨b, _ | ⟨c, _ | ⟨d, _ | ⟨e, rest⟩⟩⟩⟩⟩ <;> simp_all
  subst place
  cases found
  exact ⟨[.opening (.container .paragraph)], .strong, [], rfl, rfl, fun closed inside => absurd inside List.not_mem_nil⟩

/-- The events of a heading with a strong word in it, and of nothing else. -/
def headingParser (_ : Options) (text : String) : List Event :=
  if text = "# a **b** c" then
    [.start (.heading .h1), .text "a ", .start .strong, .text "b", .end_ .strong, .text " c", .end_ (.heading .h1)]
  else []

/-- The rest of a heading is not bold after a strong word, and no cut is made inside of a character. -/
theorem heading_after_strong :
    (∀ options text, Balanced (headingParser options text)) ∧
      (∃ spans, parseMarkdownSpans headingParser "# a **b** c" 100 = some spans ∧
        ¬ TypedByNesting (headingParser spanOptions "# a **b** c") spans) ∧
      parseMarkdownSpans headingParser "é" 1 = none ∧ extractMarkdownMetadata headingParser "é" 1 = none := by
  refine ⟨?_, ⟨_, rfl, ?_⟩, by decide, by decide⟩
  · intro options text
    unfold headingParser
    split
    · rfl
    · rfl
  · intro typed
    obtain ⟨span, found, -, bold⟩ := typed [.start (.heading .h1), .text "a ", .start .strong, .text "b", .end_ .strong]
      " c" [.end_ (.heading .h1)] rfl
    cases found
    cases bold

end Markdown

end Soshal.Content
