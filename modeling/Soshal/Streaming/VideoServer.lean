import Soshal.Library.CharBoundaries
import Soshal.Library.Scanner
import Soshal.Streaming.ByteRanges

/-! The local video server, from the bytes of a request to the bytes of a file.

Header lines are looked through for a range up to the first one. Each is cut behind
six bytes for that, wherever these end. One range of the file is sent, or all of it.
-/

set_option autoImplicit false

namespace Soshal.Streaming.Video

open Library
open Library.CharBoundaries (byteSize isCharBoundary splitAtByte splitAtByte_eq_some)
open Library.Text (byteLen eqIgnoreAsciiCase isAsciiHexdigit isWhitespace stripPrefix toAsciiLowercase)

abbrev Bytes := List UInt8

/-- The bounds of the bytes that may follow the first one of a character. -/
def continuations (first : Nat) : List (Nat × Nat) :=
  if 0xC2 ≤ first ∧ first ≤ 0xDF then [(0x80, 0xBF)]
  else if first = 0xE0 then [(0xA0, 0xBF), (0x80, 0xBF)]
  else if first = 0xED then [(0x80, 0x9F), (0x80, 0xBF)]
  else if 0xE1 ≤ first ∧ first ≤ 0xEF then [(0x80, 0xBF), (0x80, 0xBF)]
  else if first = 0xF0 then [(0x90, 0xBF), (0x80, 0xBF), (0x80, 0xBF)]
  else if 0xF1 ≤ first ∧ first ≤ 0xF3 then [(0x80, 0xBF), (0x80, 0xBF), (0x80, 0xBF)]
  else if first = 0xF4 then [(0x80, 0x8F), (0x80, 0xBF), (0x80, 0xBF)]
  else []

def fitting : List (Nat × Nat) → Bytes → Nat
  | (low, high) :: bounds, byte :: rest => if low ≤ byte.toNat ∧ byte.toNat ≤ high then fitting bounds rest + 1 else 0
  | _, _ => 0

/-- The bits of a first byte that belong to the character, with so many bytes behind it. -/
def leadingBits (first following : Nat) : Nat := first % 2 ^ (6 - following)

/-- A character, or the replacement character for as many bytes as could begin one. -/
def lossyStep (first : UInt8) (rest : Bytes) : List Char × Nat :=
  if first.toNat < 128 then ([Char.ofNat first.toNat], 0)
  else
    let bounds := continuations first.toNat
    let following := fitting bounds rest
    if bounds ≠ [] ∧ following = bounds.length then
      ([Char.ofNat ((rest.take following).foldl (fun acc byte => acc * 64 + byte.toNat % 64)
        (leadingBits first.toNat following))], following)
    else (['\uFFFD'], following)

/-- `String::from_utf8_lossy`. -/
def fromUtf8Lossy (bytes : Bytes) : String := String.ofList (Scanner.scan lossyStep bytes)

def stripCarriageReturn (cs : List Char) : List Char := if cs.getLast? = some '\r' then cs.dropLast else cs

/-- `str::lines`: only lines with an end lose a carriage return. -/
def lines (s : String) : List String :=
  let parts := s.toList.splitOn '\n'
  let ended := parts.dropLast.map stripCarriageReturn
  let open_ := parts.getLast?.filter (· ≠ [])
  (ended ++ open_.toList).map String.ofList

def splitWhitespace (s : String) : List String := ((s.toList.splitOnP isWhitespace).filter (· ≠ [])).map String.ofList

structure Request where
  method : String
  path : String
  headers : List String

def readBufferLen : Nat := 4096

/-- The request line and the lines behind it, if there are two words in it. -/
def readRequest (received : Bytes) : Option Request :=
  match lines (fromUtf8Lossy (received.take readBufferLen)) with
  | [] => none
  | reqLine :: headers =>
    match splitWhitespace reqLine with
    | method :: target :: _ => some ⟨method, (Text.splitOn target '?').head?.getD target, headers⟩
    | _ => none

/-- The first range header. Slicing inside of a character ends the program. -/
def findRange : List String → Option (Option String)
  | [] => some none
  | line :: rest =>
    if 6 ≤ byteLen line then
      match splitAtByte line.toList 6 with
      | none => none
      | some (front, _) =>
        if eqIgnoreAsciiCase (String.ofList front) "range:" then some (some line) else findRange rest
    else findRange rest

inductive Route where
  | video (id : String)
  | blob (hash : String)

def isValidHex (s : String) : Bool := s ≠ "" && s.toList.all isAsciiHexdigit

def parseRoute (path : String) : Option Route :=
  match (stripPrefix path "/video/").filter fun id => id ≠ "" ∧ '/' ∉ id.toList with
  | some id => some (.video id)
  | none =>
    match (stripPrefix path "/blob/").filter fun hash => byteLen hash = 64 ∧ isValidHex hash with
    | some hash => some (.blob hash)
    | none => none

/-- A file that can be read. A read gives some of the bytes that are wanted, and none only at the end. -/
structure File where
  content : Bytes
  small : content.length < 2 ^ 64
  count : Nat → Nat → Nat
  count_le : ∀ pos want, count pos want ≤ want ∧ count pos want ≤ content.length - pos
  count_pos : ∀ pos want, 0 < want → pos < content.length → 0 < count pos want

def File.size (file : File) : Nat := file.content.length

structure Server where
  videos : String → Option String
  blobRoot : Option String
  join : String → String → String
  isFile : String → Bool
  openFile : String → Option File

def Server.routedPath (server : Server) (path : String) : Option String :=
  match parseRoute path with
  | none => none
  | some (.video id) => server.videos id
  | some (.blob hash) =>
    match server.blobRoot with
    | none => none
    | some root =>
      let filePath := server.join root (toAsciiLowercase hash)
      if server.isFile filePath then some filePath else none

structure Response where
  statusLine : String
  headers : List (String × String)
  body : Bytes

def notFound : Response := ⟨"HTTP/1.1 404 Not Found", [("Content-Length", "0")], []⟩

def methodNotAllowed : Response :=
  ⟨"HTTP/1.1 405 Method Not Allowed", [("Allow", "GET"), ("Content-Length", "0")], []⟩

def badRequest : Response := ⟨"HTTP/1.1 400 Bad Request", [("Content-Length", "0")], []⟩

def notSatisfiable (totalSize : Nat) : Response :=
  ⟨"HTTP/1.1 416 Range Not Satisfiable",
    [("Content-Range", "bytes */" ++ toString totalSize), ("Content-Length", "0")], []⟩

def partialContent : String := "HTTP/1.1 206 Partial Content"

/-- The lengths are of 64 bits, and arithmetic beyond them ends the program. -/
def chunkLen (start last : Nat) : Option Nat :=
  if start ≤ last ∧ last - start + 1 < 2 ^ 64 then some (last - start + 1) else none

/-- The loop that copies the file, from a position and with so much left to send. -/
def sendFrom (file : File) : Nat → Nat → Nat → Bytes
  | 0, _, _ => []
  | fuel + 1, pos, remaining =>
    if remaining = 0 then []
    else
      let bytesRead := file.count pos (min remaining 65536)
      if bytesRead = 0 then []
      else (file.content.drop pos).take bytesRead ++ sendFrom file fuel (pos + bytesRead) (remaining - bytesRead)

def serveVideoFile (file : File) (rangeHeader : Option String) : Option Response :=
  match readRange file.size rangeHeader with
  | .invalid => some badRequest
  | .span start last =>
    if file.size = 0 ∨ start > last then some (notSatisfiable file.size)
    else do
      let chunk ← chunkLen start last
      some
        { statusLine := partialContent
          headers := [("Accept-Ranges", "bytes"), ("Content-Type", "video/mp4"), ("Content-Length", toString chunk),
            ("Content-Range", "bytes " ++ toString start ++ "-" ++ toString last ++ "/" ++ toString file.size),
            ("Connection", "close")]
          body := sendFrom file chunk start chunk }
  | .whole => do
    let chunk ← if 0 < file.size then chunkLen 0 (file.size - 1) else some 0
    some
      { statusLine := "HTTP/1.1 200 OK"
        headers := [("Accept-Ranges", "bytes"), ("Content-Type", "video/mp4"), ("Content-Length", toString chunk),
          ("Connection", "close")]
        body := sendFrom file chunk 0 chunk }

def Server.routedFile (server : Server) (path : String) : Option File := (server.routedPath path).bind server.openFile

def respond (server : Server) (path : String) (rangeHeader : Option String) : Option Response :=
  match server.routedFile path with
  | none => some notFound
  | some file => serveVideoFile file rangeHeader

/-- Nothing when the program ends. Without a request line of two words the connection is closed unanswered. -/
def handle (server : Server) (received : Bytes) : Option (Option Response) :=
  match readRequest received with
  | none => some none
  | some request =>
    if request.method ≠ "GET" then some (some methodNotAllowed)
    else (findRange request.headers).bind fun rangeHeader => (respond server request.path rangeHeader).map some

/-- The bytes of a range, with its place in the file and its length. -/
structure PartOf (file : File) (first last : Nat) (response : Response) : Prop where
  body : response.body = (file.content.drop first).take (last - first + 1)
  contentRange :
    ("Content-Range", "bytes " ++ toString first ++ "-" ++ toString last ++ "/" ++ toString file.size) ∈ response.headers
  contentLength : ("Content-Length", toString (last - first + 1)) ∈ response.headers

/-- The program goes on, and partial content is the range that was specified. -/
def Answered (server : Server) (received : Bytes) : Prop :=
  ∃ outcome, handle server received = some outcome ∧
    ∀ response, outcome = some response → response.statusLine = partialContent →
      ∃ request file line range first last, readRequest received = some request ∧
        server.routedFile request.path = some file ∧ request.headers.find? (fun line => StartsRange line) = some line ∧
        strictRange line = some range ∧ range.clip file.size = some (first, last) ∧ PartOf file first last response

/-- Up to the first range header, no line has a character across the end of its first six bytes. -/
def Sliceable (headers : List String) : Prop :=
  ∀ before line after, headers = before ++ line :: after → (∀ l ∈ before, ¬ StartsRange l) → 6 ≤ byteLen line →
    isCharBoundary line.toList 6 = true

/-- A request for content whose lines can be cut, and whose range is specified if it is taken for one at all. -/
def Sound (server : Server) (received : Bytes) : Prop :=
  ∀ request, readRequest received = some request → request.method = "GET" →
    Sliceable request.headers ∧
      ∀ file line, server.routedFile request.path = some file →
        request.headers.find? (fun line => StartsRange line) = some line →
        ∀ first last, Taken file.size line first last → (strictRange line).isSome

theorem utf8Size_toLower (c : Char) : c.toLower.utf8Size = c.utf8Size := by
  delta Char.toLower
  split
  · rename_i upper
    have high : c.val.toNat ≤ 90 := upper.2
    have shifted : (c.val + ('a'.val - 'A'.val)).toNat = c.val.toNat + 32 := Text.toNat_shift high
    have narrow : ∀ d : Char, d.val.toNat ≤ 127 → d.utf8Size = 1 := by
      intro d small
      unfold Char.utf8Size
      rw [if_pos]
      exact UInt32.le_iff_toNat_le.mpr small
    rw [narrow c (by omega), narrow _ (by dsimp only; omega)]
  · rfl

theorem byteSize_map_toLower (cs : List Char) : byteSize (cs.map Char.toLower) = byteSize cs := by
  rw [byteSize, byteSize, List.map_map]
  congr 1
  exact List.map_congr_left fun c _ => utf8Size_toLower c

theorem eqIgnoreAsciiCase_range (front : List Char) :
    eqIgnoreAsciiCase (String.ofList front) "range:" = true ↔ front.map Char.toLower = "range:".toList := by
  rw [eqIgnoreAsciiCase, beq_iff_eq, toAsciiLowercase, toAsciiLowercase, String.ofList_inj, String.toList_ofList]
  exact Iff.rfl

theorem startsRange_of_cut {line : String} {front back : List Char}
    (cut : splitAtByte line.toList 6 = some (front, back)) :
    eqIgnoreAsciiCase (String.ofList front) "range:" = true ↔ StartsRange line := by
  rw [eqIgnoreAsciiCase_range, StartsRange]
  obtain ⟨joined, -⟩ := splitAtByte_eq_some.mp cut
  constructor
  · intro named
    have six : front.length = 6 := by
      have length := congrArg List.length named
      rwa [List.length_map] at length
    rw [← joined, List.take_left' six, named]
  · intro named
    -- Lower case takes as many bytes as upper case, so the six characters are six bytes.
    have size : byteSize (line.toList.take 6) = 6 := by
      rw [← byteSize_map_toLower, named]
      rfl
    have cut' : splitAtByte line.toList 6 = some (line.toList.take 6, line.toList.drop 6) :=
      splitAtByte_eq_some.mpr ⟨List.take_append_drop 6 line.toList, size⟩
    rw [cut] at cut'
    cases cut'
    exact named

theorem byteLen_of_startsRange {line : String} (named : StartsRange line) : 6 ≤ byteLen line := by
  have size : byteSize (line.toList.take 6) = 6 := by
    rw [← byteSize_map_toLower, named]
    rfl
  rw [← CharBoundaries.byteSize_toList, ← List.take_append_drop 6 line.toList, CharBoundaries.byteSize_append]
  omega

theorem sliceable_cons {line : String} {rest : List String} :
    Sliceable (line :: rest) ↔
      (6 ≤ byteLen line → isCharBoundary line.toList 6 = true) ∧ (¬ StartsRange line → Sliceable rest) := by
  constructor
  · intro all
    refine ⟨fun long => all [] line rest rfl (fun l inside => absurd inside List.not_mem_nil) long, ?_⟩
    rintro other before next after rfl unnamed long
    exact all (line :: before) next after rfl (List.forall_mem_cons.mpr ⟨other, unnamed⟩) long
  · rintro ⟨first, later⟩ before next after joined unnamed long
    obtain _ | ⟨head, before⟩ := before
    · cases joined
      exact first long
    · obtain ⟨rfl, tail⟩ := List.cons.inj joined
      obtain ⟨other, unnamed⟩ := List.forall_mem_cons.mp unnamed
      exact later other before next after tail unnamed long

theorem findRange_eq_some {headers : List String} {found : Option String} :
    findRange headers = some found ↔
      Sliceable headers ∧ headers.find? (fun line => StartsRange line) = found := by
  induction headers with
  | nil =>
    have sliceable : Sliceable [] := by
      intro before line after joined
      simp at joined
    simp [findRange, sliceable]
  | cons line rest ih =>
    rw [sliceable_cons, findRange]
    by_cases long : 6 ≤ byteLen line
    · rw [if_pos long]
      cases cut : splitAtByte line.toList 6 with
      -- A character across the sixth byte ends the search, and the program with it.
      | none => simp [long, isCharBoundary, cut]
      | some parts =>
        obtain ⟨front, back⟩ := parts
        dsimp only
        by_cases named : StartsRange line
        · rw [if_pos ((startsRange_of_cut cut).mpr named)]
          simp [isCharBoundary, cut, named]
        · rw [if_neg fun same => named ((startsRange_of_cut cut).mp same), ih]
          simp [isCharBoundary, cut, named]
    · have named : ¬ StartsRange line := fun named => long (byteLen_of_startsRange named)
      rw [if_neg long, ih]
      simp [long, named]

theorem sendFrom_eq (file : File) {fuel pos remaining : Nat} (enough : remaining ≤ fuel)
    (inside : pos + remaining ≤ file.content.length) :
    sendFrom file fuel pos remaining = (file.content.drop pos).take remaining := by
  induction fuel generalizing pos remaining with
  | zero =>
    obtain rfl : remaining = 0 := by omega
    rw [sendFrom, List.take_zero]
  | succ fuel ih =>
    rw [sendFrom]
    by_cases done : remaining = 0
    · rw [if_pos done, done, List.take_zero]
    · -- A read that is wanted gives a byte at least, so the fuel lasts.
      have positive := file.count_pos pos (min remaining 65536) (by omega) (by omega)
      have few := (file.count_le pos (min remaining 65536)).1
      dsimp only
      generalize file.count pos (min remaining 65536) = bytesRead at positive few ⊢
      rw [if_neg done, if_neg (by omega), ih (by omega) (by omega), ← List.drop_drop, ← List.take_add]
      congr 1
      omega

theorem chunkLen_eq {file : File} {start last : Nat} (order : start ≤ last) (inside : last < file.size) :
    chunkLen start last = some (last - start + 1) := by
  have small := file.small
  unfold File.size at inside
  exact if_pos ⟨order, by omega⟩

theorem serve_span {file : File} {line : String} {first last : Nat} (taken : Taken file.size line first last) :
    ∃ response, serveVideoFile file (some line) = some response ∧ response.statusLine = partialContent ∧
      PartOf file first last response := by
  obtain ⟨span, nonempty, order⟩ := readRange_eq_span.mpr taken
  have inside := taken.inside
  have within : first + (last - first + 1) ≤ file.content.length := by
    unfold File.size at inside
    omega
  rw [serveVideoFile, span]
  dsimp only
  rw [if_neg (by omega), chunkLen_eq order inside]
  exact ⟨_, rfl, rfl, sendFrom_eq file (le_refl _) within, by simp, by simp⟩

theorem serve_other {file : File} {rangeHeader : Option String}
    (other : ∀ line, rangeHeader = some line → ∀ first last, ¬ Taken file.size line first last) :
    ∃ response, serveVideoFile file rangeHeader = some response ∧ response.statusLine ≠ partialContent := by
  unfold serveVideoFile
  split
  · exact ⟨_, rfl, by decide⟩
  · rename_i start last span
    obtain ⟨line, rfl⟩ : ∃ line, rangeHeader = some line := by
      cases rangeHeader with
      | none => cases span
      | some line => exact ⟨line, rfl⟩
    rw [if_pos]
    · exact ⟨_, rfl, by simp [notSatisfiable, partialContent]⟩
    · by_contra satisfiable
      exact other line rfl start last (readRange_eq_span.mp ⟨span, by omega, by omega⟩)
  · by_cases nonempty : 0 < file.size
    · rw [if_pos nonempty, chunkLen_eq (Nat.zero_le _) (Nat.sub_lt nonempty Nat.one_pos)]
      exact ⟨_, rfl, (by decide : "HTTP/1.1 200 OK" ≠ partialContent)⟩
    · rw [if_neg nonempty]
      exact ⟨_, rfl, (by decide : "HTTP/1.1 200 OK" ≠ partialContent)⟩

section

variable {server : Server} {received : Bytes} {request : Request} {file : File}

theorem answered_of_other {outcome : Option Response} (handled : handle server received = some outcome)
    (other : ∀ response, outcome = some response → response.statusLine ≠ partialContent) :
    Answered server received :=
  ⟨outcome, handled, fun response same status => absurd status (other response same)⟩

variable (read : readRequest received = some request) (get : request.method = "GET")
include read get

theorem handle_get :
    handle server received =
      (findRange request.headers).bind fun rangeHeader => (respond server request.path rangeHeader).map some := by
  rw [handle, read]
  exact if_neg (not_not_intro get)

theorem handle_routed (sliceable : Sliceable request.headers) (routed : server.routedFile request.path = some file) :
    handle server received =
      (serveVideoFile file (request.headers.find? fun line => StartsRange line)).map some := by
  rw [handle_get read get, findRange_eq_some.mpr ⟨sliceable, rfl⟩, Option.bind_some, respond, routed]

theorem sound_iff_of_get :
    Sound server received ↔ Sliceable request.headers ∧
      ∀ file line, server.routedFile request.path = some file →
        request.headers.find? (fun line => StartsRange line) = some line →
        ∀ first last, Taken file.size line first last → (strictRange line).isSome := by
  constructor
  · exact fun all => all request read get
  · intro one request' found _
    rw [read] at found
    cases found
    exact one

theorem answered_taken_iff {line : String} {first last : Nat} (sliceable : Sliceable request.headers)
    (routed : server.routedFile request.path = some file)
    (found : request.headers.find? (fun line => StartsRange line) = some line)
    (taken : Taken file.size line first last) : Answered server received ↔ (strictRange line).isSome := by
  obtain ⟨response, responded, partial_, part⟩ := serve_span taken
  have handled : handle server received = some (some response) := by
    rw [handle_routed read get sliceable routed, found, responded, Option.map_some]
  have field : StartsRange line := by
    have starts := List.find?_some found
    exact of_decide_eq_true starts
  constructor
  · rintro ⟨outcome, handled', right⟩
    cases handled.symm.trans handled'
    obtain ⟨request', -, line', range, -, -, read', -, found', specified, -⟩ := right response rfl partial_
    cases read.symm.trans read'
    cases found.symm.trans found'
    rw [specified]
    rfl
  · intro specified
    obtain ⟨range, specified⟩ := Option.isSome_iff_exists.mp specified
    refine ⟨some response, handled, ?_⟩
    rintro response' ⟨⟩ -
    exact ⟨request, file, line, range, first, last, read, routed, found, specified,
      clip_of_taken field specified taken, part⟩

theorem answered_of_not_taken (sliceable : Sliceable request.headers)
    (routed : server.routedFile request.path = some file)
    (other : ∀ line, request.headers.find? (fun line => StartsRange line) = some line →
      ∀ first last, ¬ Taken file.size line first last) : Answered server received := by
  obtain ⟨response, responded, status⟩ := serve_other other
  have handled : handle server received = some (some response) := by
    rw [handle_routed read get sliceable routed, responded, Option.map_some]
  refine answered_of_other handled ?_
  rintro response' ⟨⟩
  exact status

theorem not_answered_of_cut (sliceable : ¬ Sliceable request.headers) : ¬ Answered server received := by
  rintro ⟨outcome, handled, -⟩
  rw [handle_get read get, Option.bind_eq_some_iff] at handled
  obtain ⟨found, looked, -⟩ := handled
  exact sliceable (findRange_eq_some.mp looked).1

theorem answered_get_iff : Answered server received ↔ Sound server received := by
  rw [sound_iff_of_get read get]
  by_cases sliceable : Sliceable request.headers
  · rw [and_iff_right sliceable]
    cases routed : server.routedFile request.path with
    | none =>
      have handled : handle server received = some (some notFound) := by
        rw [handle_get read get, findRange_eq_some.mpr ⟨sliceable, rfl⟩, Option.bind_some, respond, routed,
          Option.map_some]
      refine iff_of_true (answered_of_other handled ?_) fun file line found => by cases found
      rintro response ⟨⟩
      decide
    | some file =>
      by_cases served : ∃ line first last,
          request.headers.find? (fun line => StartsRange line) = some line ∧ Taken file.size line first last
      · obtain ⟨line, first, last, found, taken⟩ := served
        rw [answered_taken_iff read get sliceable routed found taken]
        constructor
        · rintro specified _ line' ⟨⟩ found' - - -
          cases found.symm.trans found'
          exact specified
        · exact fun all => all file line rfl found first last taken
      · have other : ∀ line, request.headers.find? (fun line => StartsRange line) = some line →
            ∀ first last, ¬ Taken file.size line first last :=
          fun line found first last taken => served ⟨line, first, last, found, taken⟩
        refine iff_of_true (answered_of_not_taken read get sliceable routed other) ?_
        rintro _ line ⟨⟩ found first last taken
        exact absurd taken (other line found first last)
  · exact iff_of_false (not_answered_of_cut read get sliceable) fun both => sliceable both.1

end

/-- The program goes on, and sends no range but the one that was specified, when the lines can be cut and what is taken
for a range is one. -/
theorem video_server_iff (server : Server) (received : Bytes) : Answered server received ↔ Sound server received := by
  cases read : readRequest received with
  | none =>
    have handled : handle server received = some none := by rw [handle, read]
    refine iff_of_true (answered_of_other handled fun response same => by cases same) ?_
    intro request found
    rw [read] at found
    cases found
  | some request =>
    by_cases get : request.method = "GET"
    · exact answered_get_iff read get
    · have handled : handle server received = some (some methodNotAllowed) := by
        rw [handle, read]
        exact if_pos get
      refine iff_of_true (answered_of_other handled ?_) ?_
      · rintro response ⟨⟩
        decide
      · intro request' found method
        rw [read] at found
        cases found
        exact absurd method get

def helloFile : File where
  content := Text.utf8 "hello"
  small := by decide
  count pos want := min want (5 - pos)
  count_le pos want := ⟨Nat.min_le_left _ _, Nat.min_le_right _ _⟩
  count_pos pos want wanted inside := by
    have five : pos < 5 := inside
    omega

def helloServer : Server where
  videos id := if id = "v" then some "hello.mp4" else none
  blobRoot := none
  join root name := root ++ "/" ++ name
  isFile path := path = "hello.mp4"
  openFile path := if path = "hello.mp4" then some helloFile else none

/-- A header line with a character across its sixth byte ends the program, and the unit of a range is not looked at. -/
theorem any_unit_served :
    ¬ Answered helloServer (Text.utf8 "GET / HTTP/1.1\r\nX-Caf\u00e9: 1\r\n\r\n") ∧
      ¬ Answered helloServer (Text.utf8 "GET /video/v HTTP/1.1\r\nRange: items=0-1\r\n\r\n") := by
  constructor
  · rintro ⟨outcome, handled, -⟩
    have ended : handle helloServer (Text.utf8 "GET / HTTP/1.1\r\nX-Caf\u00e9: 1\r\n\r\n") = none := rfl
    cases ended.symm.trans handled
  · rintro ⟨outcome, handled, right⟩
    obtain ⟨response, served, status⟩ : ∃ response, handle helloServer
        (Text.utf8 "GET /video/v HTTP/1.1\r\nRange: items=0-1\r\n\r\n") = some (some response) ∧
          response.statusLine = partialContent := ⟨_, rfl, rfl⟩
    cases served.symm.trans handled
    obtain ⟨request, file, line, range, first, last, read, -, found, specified, -⟩ := right response rfl status
    have parsed : readRequest (Text.utf8 "GET /video/v HTTP/1.1\r\nRange: items=0-1\r\n\r\n") =
        some ⟨"GET", "/video/v", ["Range: items=0-1", ""]⟩ := rfl
    cases parsed.symm.trans read
    cases found
    cases specified

end Soshal.Streaming.Video
