import Soshal.Media.ChunkStore

/-! Ranges of a blob: what the copying and the mapped path return.

The manifest says where each chunk lies; the store holds the chunks themselves,
whose lengths are their own. A range is right when each position of it holds the
byte that the chunk declared for that position has there.
-/

set_option autoImplicit false

namespace Soshal.Media

open Library
open Library.Text (byteLen eqIgnoreAsciiCase toAsciiLowercase)
open ChunkStore

/-- The byte at position `x` of the blob whose chunks read as `content` says. -/
def byteAt (content : String → Option Bytes) (chunks : List ChunkRef) (x : Nat) : Option UInt8 :=
  (chunks.find? fun c => decide (c.Holds x)).bind fun c => (content c.blake3).bind fun d => d[x - c.start]?

/-- The bytes at the positions from `offset` on. -/
def Occupies (content : String → Option Bytes) (m : ChunkManifest) (offset : Nat) (bytes : Bytes) : Prop :=
  ∀ i < bytes.length, byteAt content m.chunks (offset + i) = bytes[i]?

/-- The chunk reaches as far into a range that ends at `stop` as its declared size says. -/
def Agrees (stop : Nat) (c : ChunkRef) (d : Bytes) : Prop :=
  min (stop - c.start) d.length = min (stop - c.start) c.size

/-! ## The chunks that a range overlaps -/

theorem checkedAdd_some {a b sum : Nat} (added : checkedAdd a b = some sum) : sum = a + b ∧ a + b ≤ maxU64 := by
  unfold checkedAdd at added
  split at added
  · rename_i fits
    exact ⟨(Option.some.inj added).symm, fits⟩
  · simp at added

theorem saturatingAdd_of_le {a b : Nat} (fits : a + b ≤ maxU64) : saturatingAdd a b = a + b :=
  Nat.min_eq_left fits

theorem ChunkManifest.totalSize_le (m : ChunkManifest) :
    m.totalSize.toNat ≤ maxU64 := Nat.le_of_lt_succ m.totalSize.toNat_lt

theorem total_iff_ends {total next : Nat} {chunks : List ChunkRef} (bounded : total ≤ maxU64)
    (valid : validFrom total next chunks = true) :
    next + (chunks.map ChunkRef.size).sum = total ↔ ∀ c ∈ chunks, c.start + c.size ≤ total := by
  induction chunks generalizing next with
  | nil => simpa [validFrom] using valid
  | cons c rest ih =>
    obtain ⟨rfl, -, -, tail⟩ := validFrom_cons valid
    rw [List.forall_mem_cons, List.map_cons, List.sum_cons, ← Nat.add_assoc]
    constructor
    · intro sum
      rw [saturatingAdd_of_le (by omega)] at tail
      exact ⟨by omega, (ih tail).mp sum⟩
    · rintro ⟨first, ends⟩
      rw [saturatingAdd_of_le (first.trans bounded)] at tail
      exact (ih tail).mpr ends

theorem overlapping_cons {offset stop : Nat} {c : ChunkRef} {rest covered : List ChunkRef} (starts : c.start < stop)
    (found : overlapping offset stop (c :: rest) = some covered) :
    c.start + c.size ≤ maxU64 ∧ ∃ later, overlapping offset stop rest = some later ∧
      covered = if c.start + c.size > offset then c :: later else later := by
  rw [overlapping, if_pos starts] at found
  cases added : checkedAdd c.start c.size with
  | none => simp [added] at found
  | some cEnd =>
    obtain ⟨rfl, fits⟩ := checkedAdd_some added
    cases tail : overlapping offset stop rest with
    | none => simp [added, tail] at found
    | some later =>
      simp only [added, tail, Option.bind_eq_bind, Option.bind_some, Option.some.injEq] at found
      exact ⟨fits, later, rfl, found.symm⟩

-- Past the start of the range every chunk counts until one starts at or after its end.
theorem overlapping_after {total offset stop next : Nat} {chunks covered : List ChunkRef} (bounded : next ≤ maxU64)
    (valid : validFrom total next chunks = true) (within : stop ≤ total) (past : offset < next)
    (found : overlapping offset stop chunks = some covered) :
    ∃ after, chunks = covered ++ after ∧ Spans stop next covered ∧ ∀ c ∈ after, stop ≤ c.start := by
  induction chunks generalizing next covered with
  | nil =>
    have done : next = total := by simpa [validFrom] using valid
    cases found
    exact ⟨[], rfl, by simpa [Spans, done] using within, by simp⟩
  | cons c rest ih =>
    obtain ⟨rfl, nonempty, -, tail⟩ := validFrom_cons valid
    by_cases starts : c.start < stop
    · obtain ⟨fits, later, more, rfl⟩ := overlapping_cons starts found
      rw [saturatingAdd_of_le fits] at tail
      obtain ⟨after, rfl, spans, beyond⟩ := ih fits tail (by omega) more
      rw [if_pos (by omega)]
      exact ⟨after, rfl, ⟨rfl, starts, nonempty, spans⟩, beyond⟩
    · rw [overlapping, if_neg starts] at found
      cases found
      refine ⟨c :: rest, rfl, Nat.le_of_not_lt starts, ?_⟩
      intro other member
      exact (Nat.le_of_not_lt starts).trans (validFrom_start_le bounded valid other member)

theorem overlapping_split {total offset stop next : Nat} {chunks covered : List ChunkRef} (bounded : next ≤ maxU64)
    (valid : validFrom total next chunks = true) (within : stop ≤ total) (nonempty : offset < stop)
    (before : next ≤ offset) (found : overlapping offset stop chunks = some covered) :
    ∃ skipped c rest after, chunks = skipped ++ covered ++ after ∧ covered = c :: rest ∧
      (∀ b ∈ skipped, b.start + b.size ≤ offset) ∧ c.start ≤ offset ∧ offset < c.start + c.size ∧
      Spans stop c.start covered ∧ ∀ a ∈ after, stop ≤ a.start := by
  induction chunks generalizing next covered with
  | nil =>
    have done : next = total := by simpa [validFrom] using valid
    omega
  | cons c rest ih =>
    obtain ⟨rfl, positive, -, tail⟩ := validFrom_cons valid
    have starts : c.start < stop := by omega
    obtain ⟨fits, later, more, rfl⟩ := overlapping_cons starts found
    rw [saturatingAdd_of_le fits] at tail
    by_cases reaches : c.start + c.size > offset
    · rw [if_pos reaches]
      obtain ⟨after, rfl, spans, beyond⟩ := overlapping_after fits tail within reaches more
      exact ⟨[], c, later, after, rfl, rfl, by simp, before, reaches, ⟨rfl, starts, positive, spans⟩, beyond⟩
    · rw [if_neg reaches]
      obtain ⟨skipped, first, others, after, rfl, rfl, early, rest'⟩ :=
        ih fits tail (Nat.le_of_not_lt reaches) more
      refine ⟨c :: skipped, first, others, after, rfl, rfl, ?_, rest'⟩
      intro b member
      cases member with
      | head => exact Nat.le_of_not_lt reaches
      | tail _ member => exact early b member

theorem byteAt_split {content : String → Option Bytes} {skipped covered after : List ChunkRef} {offset stop x : Nat}
    (early : ∀ b ∈ skipped, b.start + b.size ≤ offset) (late : ∀ a ∈ after, stop ≤ a.start) (low : offset ≤ x)
    (high : x < stop) : byteAt content (skipped ++ covered ++ after) x = byteAt content covered x := by
  have none_before : skipped.find? (fun c => decide (c.Holds x)) = none := by
    rw [List.find?_eq_none]
    intro b member
    have ends := early b member
    rw [decide_eq_true_eq]
    rintro ⟨-, inside⟩
    omega
  have none_after : after.find? (fun c => decide (c.Holds x)) = none := by
    rw [List.find?_eq_none]
    intro a member
    have starts := late a member
    rw [decide_eq_true_eq]
    rintro ⟨inside, -⟩
    omega
  unfold byteAt
  rw [List.find?_append, List.find?_append, none_before, none_after]
  simp

/-! ## Windows -/

/-- The byte that the chunks `over`, read as `ds`, have at position `x`. -/
def byteIn : List ChunkRef → List Bytes → Nat → Option UInt8
  | c :: covered, d :: ds, x => if c.Holds x then d[x - c.start]? else byteIn covered ds x
  | _, _, _ => none

theorem byteAt_eq_byteIn {content : String → Option Bytes} {covered : List ChunkRef} {ds : List Bytes}
    (read : List.Forall₂ (fun c d => content c.blake3 = some d) covered ds) (x : Nat) :
    byteAt content covered x = byteIn covered ds x := by
  induction read with
  | nil => rfl
  | @cons c d covered ds first rest ih =>
    unfold byteAt byteIn
    by_cases holds : c.Holds x
    · simp [holds, first]
    · simpa [holds, byteAt] using ih

theorem resolve_overlapping {offset stop next : Nat} {c : ChunkRef} {d : Bytes} {w : SourceWindow}
    (starts : c.start = next) (low : next < stop) (reaches : offset < next + c.size)
    (resolved : resolve offset stop c d = some w) :
    w = ⟨d, offset - next, min (stop - next) d.length⟩ ∧ offset - next ≤ min (stop - next) d.length := by
  subst starts
  unfold resolve at resolved
  rw [if_neg (by omega)] at resolved
  simp only at resolved
  split at resolved
  · simp at resolved
  · rename_i ordered
    exact ⟨(Option.some.inj resolved).symm, Nat.le_of_not_lt ordered⟩

theorem resolveAll_cons {offset stop : Nat} {c : ChunkRef} {covered : List ChunkRef} {read : Option Bytes}
    {reads : List (Option Bytes)} {windows : List SourceWindow}
    (resolved : resolveAll offset stop (c :: covered) (read :: reads) = some windows) :
    ∃ d w later, read = some d ∧ resolve offset stop c d = some w ∧ resolveAll offset stop covered reads = some later ∧
      windows = w :: later := by
  unfold resolveAll at resolved
  simp only [Option.bind_eq_bind, Option.bind_eq_some_iff, Option.some.injEq] at resolved
  obtain ⟨d, rfl, w, first, later, rest, rfl⟩ := resolved
  exact ⟨d, w, later, rfl, first, rest, rfl⟩

def ChunkStore.SourceWindow.size (w : SourceWindow) : Nat := w.hi - w.lo

theorem length_bytes {w : SourceWindow} (inside : w.hi ≤ w.mapped.length) : w.bytes.length = w.size := by
  simp [SourceWindow.bytes, SourceWindow.size, inside]

theorem getElem?_bytes {w : SourceWindow} {i : Nat} (inside : i < w.size) : w.bytes[i]? = w.mapped[w.lo + i]? := by
  unfold SourceWindow.size at inside
  rw [SourceWindow.bytes, List.getElem?_drop, List.getElem?_take_of_lt (by omega)]

section

variable {offset stop next : Nat} {covered : List ChunkRef} {ds : List Bytes} {windows : List SourceWindow}
  (spans : Spans stop next covered) (nonempty : offset < stop)
  (reaches : ∀ c, covered.head? = some c → offset < next + c.size)
include spans nonempty reaches

/-- Where the stored lengths agree with the declared ones, the windows show the range position by position. -/
theorem windows_of_agrees (agrees : List.Forall₂ (Agrees stop) covered ds)
    (resolved : resolveAll offset stop covered (ds.map some) = some windows) :
    (windows.map SourceWindow.bytes).flatten.length = stop - max offset next ∧
      ∀ i < stop - max offset next,
        byteIn covered ds (max offset next + i) = (windows.map SourceWindow.bytes).flatten[i]? := by
  induction agrees generalizing next windows with
  | nil =>
    have done : stop ≤ next := spans
    have nothing : stop - max offset next = 0 := by omega
    cases resolved
    simp [nothing]
  | @cons c d covered ds first rest ih =>
    obtain ⟨starts, low, positive, tail⟩ := spans
    obtain ⟨_, w, later, same, one, others, rfl⟩ := resolveAll_cons resolved
    cases same
    have reach := reaches c rfl
    obtain ⟨rfl, ordered⟩ := resolve_overlapping starts low reach one
    have stored : min (stop - next) d.length = min (stop - next) c.size := by
      have agree := first
      unfold Agrees at agree
      rwa [starts] at agree
    obtain ⟨lengths, bytes⟩ := ih tail (fun _ _ => by omega) others
    have ahead : max offset (next + c.size) = next + c.size := by omega
    rw [ahead] at lengths bytes
    have width : (SourceWindow.bytes ⟨d, offset - next, min (stop - next) d.length⟩).length =
        min (stop - next) c.size - (offset - next) := by
      rw [length_bytes (Nat.min_le_right _ _)]
      simp only [SourceWindow.size, stored]
    simp only [List.map_cons, List.flatten_cons, List.length_append, width, lengths]
    refine ⟨by omega, ?_⟩
    intro i inside
    unfold byteIn
    by_cases here : i < min (stop - next) c.size - (offset - next)
    · -- The position lies in the first chunk, inside its window.
      rw [if_pos ⟨by omega, by omega⟩, List.getElem?_append_left (by omega)]
      rw [getElem?_bytes (by simp only [SourceWindow.size, stored]; omega)]
      congr 1
      simp only
      omega
    · rw [if_neg (by unfold ChunkRef.Holds; omega), List.getElem?_append_right (by omega), width]
      have shifted := bytes (i - (min (stop - next) c.size - (offset - next))) (by omega)
      rw [← shifted]
      congr 1
      omega

/-- When every position of the range is defined, the windows are at least as long as the range, and exactly
as long only if the stored lengths agree with the declared ones. -/
theorem agrees_of_windows (paired : covered.length = ds.length)
    (defined : ∀ x, max offset next ≤ x → x < stop → byteIn covered ds x ≠ none)
    (resolved : resolveAll offset stop covered (ds.map some) = some windows) :
    stop - max offset next ≤ (windows.map SourceWindow.size).sum ∧
      ((windows.map SourceWindow.size).sum = stop - max offset next → List.Forall₂ (Agrees stop) covered ds) := by
  induction covered generalizing next ds windows with
  | nil =>
    have done : stop ≤ next := spans
    have none : ds = [] := List.eq_nil_of_length_eq_zero paired.symm
    subst none
    exact ⟨by omega, fun _ => .nil⟩
  | cons c covered ih =>
    obtain ⟨d, ds, rfl⟩ : ∃ d rest, ds = d :: rest := by
      cases ds with
      | nil => simp at paired
      | cons d rest => exact ⟨d, rest, rfl⟩
    obtain ⟨starts, low, positive, tail⟩ := spans
    obtain ⟨_, w, later, same, one, others, rfl⟩ := resolveAll_cons resolved
    cases same
    have reach := reaches c rfl
    obtain ⟨rfl, ordered⟩ := resolve_overlapping starts low reach one
    -- The last position that the chunk has in the range is defined, so the chunk is long enough.
    have long : min (stop - next) c.size ≤ d.length := by
      have last := defined (next + min (stop - next) c.size - 1) (by omega) (by omega)
      unfold byteIn at last
      rw [if_pos ⟨by omega, by omega⟩] at last
      have inside : next + min (stop - next) c.size - 1 - c.start < d.length := by
        by_contra short
        exact last (List.getElem?_eq_none (by omega))
      omega
    have later_defined : ∀ x, max offset (next + c.size) ≤ x → x < stop → byteIn covered ds x ≠ none := by
      intro x above below
      have at_x := defined x (by omega) below
      unfold byteIn at at_x
      rwa [if_neg (by unfold ChunkRef.Holds; omega)] at at_x
    obtain ⟨enough, tight⟩ := ih tail (fun _ _ => by omega) (by simpa using paired) later_defined others
    have ahead : max offset (next + c.size) = next + c.size := by omega
    rw [ahead] at enough tight
    have head : (SourceWindow.size ⟨d, offset - next, min (stop - next) d.length⟩) =
        min (stop - next) d.length - (offset - next) := rfl
    simp only [List.map_cons, List.sum_cons, head]
    refine ⟨by omega, ?_⟩
    intro total
    refine .cons ?_ (tight (by omega))
    unfold Agrees
    omega

end

/-! ## What the store serves -/

variable (p : Primitives)

namespace ChunkStore

def content (store : ChunkStore) (hash : String) : Option Bytes := (store.getMmapCached p hash).2

/-- The name is backed by a cached mapping or by a file that hashes to it. -/
def Serves (store : ChunkStore) (hash : String) (d : Bytes) : Prop :=
  (hash, d) ∈ store.mmapCache.entries ∨ store.getMmap p hash = some d

/-- Every stored chunk hashes to its name, and the hash tells the stored chunks apart. -/
structure Verified (store : ChunkStore) : Prop where
  named : ∀ hash d, store.Serves p hash d → eqIgnoreAsciiCase (p.blake3 d) hash = true
  distinct : ∀ hash d hash' d', store.Serves p hash d → store.Serves p hash' d' →
    eqIgnoreAsciiCase (p.blake3 d) (p.blake3 d') = true → d = d'

variable {p} {store : ChunkStore}

theorem eqIgnoreAsciiCase_trans {a b c : String} (first : eqIgnoreAsciiCase a b = true)
    (second : eqIgnoreAsciiCase c b = true) : eqIgnoreAsciiCase a c = true := by
  simp only [eqIgnoreAsciiCase, beq_iff_eq] at *
  rw [first, second]

theorem Verified.unique (verified : store.Verified p) {hash : String} {d d' : Bytes} (one : store.Serves p hash d)
    (two : store.Serves p hash d') : d = d' :=
  verified.distinct hash d hash d' one two
    (eqIgnoreAsciiCase_trans (verified.named hash d one) (verified.named hash d' two))

theorem serves_of_content {hash : String} {d : Bytes} (read : store.content p hash = some d) :
    store.Serves p hash d := by
  obtain ⟨-, -, -, result⟩ := store.getMmapCached_cases p hash
  exact result d read

theorem content_of_serves (verified : store.Verified p) {hash : String} {d : Bytes} (long : byteLen hash = 64)
    (served : store.Serves p hash d) : store.content p hash = some d := by
  obtain ⟨other, read⟩ : ∃ other, store.content p hash = some other := by
    unfold content getMmapCached
    rw [if_neg (not_not.mpr long)]
    cases looked : store.mmapCache.get hash with
    | mk cache hit =>
      cases hit with
      | some mapped => exact ⟨mapped, rfl⟩
      | none =>
        have mapping : ({ store with mmapCache := cache } : ChunkStore).getMmap p hash = store.getMmap p hash := rfl
        simp only [mapping]
        obtain held | mapped := served
        · obtain ⟨kept, found⟩ := FifoCache.get_of_mem held
          rw [looked] at found
          simp at found
        · exact ⟨d, by rw [mapped]⟩
  rw [read, verified.unique (serves_of_content read) served]

theorem serves_of_getMmapCached {hash other : String} {d : Bytes}
    (served : (store.getMmapCached p hash).1.Serves p other d) : store.Serves p other d := by
  obtain ⟨cache, same, entries, -⟩ := store.getMmapCached_cases p hash
  rw [same] at served
  obtain held | mapped := served
  · obtain old | ⟨file, fresh, -, mapped⟩ := entries _ held
    · exact .inl old
    · cases fresh
      exact .inr mapped
  · exact .inr mapped

theorem Verified.after_read (verified : store.Verified p) (hash : String) :
    (store.getMmapCached p hash).1.Verified p where
  named other d served := verified.named other d (serves_of_getMmapCached served)
  distinct hash d hash' d' one two :=
    verified.distinct hash d hash' d' (serves_of_getMmapCached one) (serves_of_getMmapCached two)

theorem length_readAll (chunks : List ChunkRef) : (store.readAll p chunks).2.length = chunks.length := by
  induction chunks generalizing store with
  | nil => rfl
  | cons c rest ih => simp [readAll, ih]

theorem byteLen_of_content {hash : String} {d : Bytes} (read : store.content p hash = some d) :
    byteLen hash = 64 := by
  by_contra short
  simp [content, getMmapCached, short] at read

theorem readAll_content (verified : store.Verified p) {chunks : List ChunkRef} {ds : List Bytes}
    (read : (store.readAll p chunks).2 = ds.map some) :
    List.Forall₂ (fun c d => store.content p c.blake3 = some d) chunks ds := by
  induction chunks generalizing store ds with
  | nil =>
    cases ds with
    | nil => exact .nil
    | cons => simp [readAll] at read
  | cons c rest ih =>
    cases ds with
    | nil => simp [readAll] at read
    | cons d ds =>
      simp only [readAll, List.map_cons, List.cons.injEq] at read
      refine .cons read.1 ?_
      apply (ih (verified.after_read c.blake3) read.2).imp
      intro later other found
      exact content_of_serves verified (byteLen_of_content found) (serves_of_getMmapCached (serves_of_content found))

/-! ## The copying path -/

theorem read_range_iff {m : ChunkManifest} {offset len : Nat} (go : Nat → ChunkStore × Option Bytes) {out : Bytes} :
    (if !m.isValid || len == 0 then (store, none)
      else
        match checkedAdd offset len with
        | none => (store, none)
        | some stop => if stop > m.totalSize.toNat then (store, none) else go stop).2 = some out ↔
      m.isValid = true ∧ 0 < len ∧ offset + len ≤ m.totalSize.toNat ∧ (go (offset + len)).2 = some out := by
  by_cases kept : m.isValid = true ∧ 0 < len
  case neg =>
    have refused : (!m.isValid || len == 0) = true := by
      rw [Bool.or_eq_true, Bool.not_eq_true', beq_iff_eq]
      by_cases valid : m.isValid = true
      · exact .inr (Nat.eq_zero_of_not_pos fun positive => kept ⟨valid, positive⟩)
      · exact .inl (Bool.eq_false_of_not_eq_true valid)
    rw [if_pos refused]
    exact iff_of_false nofun fun accepted => kept ⟨accepted.1, accepted.2.1⟩
  obtain ⟨valid, positive⟩ := kept
  have taken : ¬ (!m.isValid || len == 0) = true := by simp [valid]; omega
  rw [if_neg taken]
  simp only [valid, positive, true_and]
  by_cases within : offset + len ≤ m.totalSize.toNat
  · have sum : checkedAdd offset len = some (offset + len) := if_pos (within.trans m.totalSize_le)
    rw [sum]
    simp only [if_neg (Nat.not_lt.mpr within), within, true_and]
  · simp only [within, false_and, iff_false]
    cases added : checkedAdd offset len with
    | none => simp
    | some stop =>
      obtain ⟨rfl, -⟩ := checkedAdd_some added
      simp [Nat.not_le.mp within]

theorem blobSlice_eq_some {m : ChunkManifest} {offset len : Nat} {bytes : Bytes} :
    (store.blobSlice p m offset len).2 = some bytes ↔
      m.isValid = true ∧ 0 < len ∧ offset + len ≤ m.totalSize.toNat ∧
        ∃ chunks windows, overlapping offset (offset + len) m.chunks = some chunks ∧ chunks ≠ [] ∧
          resolveAll offset (offset + len) chunks (store.readAll p chunks).2 = some windows ∧
          (windows.map SourceWindow.size).sum = len ∧ bytes = (windows.map SourceWindow.bytes).flatten := by
  refine (read_range_iff _).trans ?_
  refine and_congr_right fun _ => and_congr_right fun _ => and_congr_right fun _ => ?_
  cases covered : overlapping offset (offset + len) m.chunks with
  | none => simp
  | some chunks =>
    by_cases empty : chunks = []
    · simp [empty]
    · have some_chunk : ¬ chunks.isEmpty = true := by simpa using empty
      simp only [if_neg some_chunk, Option.bind_eq_some_iff, assemble]
      constructor
      · rintro ⟨windows, resolved, assembled⟩
        split at assembled
        · simp at assembled
        · rename_i filled
          exact ⟨chunks, windows, rfl, empty, resolved, not_not.mp filled, (Option.some.inj assembled).symm⟩
      · rintro ⟨_, windows, same, -, resolved, filled, rfl⟩
        cases same
        refine ⟨windows, resolved, if_neg ?_⟩
        exact not_not.mpr filled

theorem reads_of_resolveAll {offset stop : Nat} {chunks : List ChunkRef} {reads : List (Option Bytes)}
    {windows : List SourceWindow} (paired : reads.length = chunks.length)
    (resolved : resolveAll offset stop chunks reads = some windows) : ∃ ds : List Bytes, reads = ds.map some := by
  induction chunks generalizing reads windows with
  | nil => exact ⟨[], List.eq_nil_of_length_eq_zero paired⟩
  | cons c rest ih =>
    cases reads with
    | nil => simp at paired
    | cons read reads =>
      obtain ⟨d, w, later, rfl, -, tail, -⟩ := resolveAll_cons resolved
      obtain ⟨ds, rfl⟩ := ih (by simpa using paired) tail
      exact ⟨d :: ds, rfl⟩

/-- The geometry of a successful slice: its chunks tile the range, and it shows their windows. -/
theorem slice_windows (verified : store.Verified p) {m : ChunkManifest} {offset len : Nat} {chunks : List ChunkRef}
    {ds : List Bytes} {windows : List SourceWindow} (valid : m.isValid = true) (positive : 0 < len)
    (within : offset + len ≤ m.totalSize.toNat) (covered : overlapping offset (offset + len) m.chunks = some chunks)
    (read : (store.readAll p chunks).2 = ds.map some)
    (resolved : resolveAll offset (offset + len) chunks (ds.map some) = some windows)
    (filled : (windows.map SourceWindow.size).sum = len) :
    Occupies (store.content p) m offset (windows.map SourceWindow.bytes).flatten ∧
        (windows.map SourceWindow.bytes).flatten.length = len ↔ List.Forall₂ (Agrees (offset + len)) chunks ds := by
  obtain ⟨skipped, c, rest, after, split, rfl, early, low, high, spans, late⟩ :=
    overlapping_split (Nat.zero_le _) (ChunkManifest.validFrom_zero valid) within (by omega) (Nat.zero_le _) covered
  have read_as := readAll_content verified read
  have reaches : ∀ first, (c :: rest).head? = some first → offset < c.start + first.size := by
    rintro _ ⟨⟩
    exact high
  have origin : max offset c.start = offset := Nat.max_eq_left low
  have width : offset + len - max offset c.start = len := by omega
  have bytes_at : ∀ i < len, byteAt (store.content p) m.chunks (offset + i) = byteIn (c :: rest) ds (offset + i) := by
    intro i inside
    rw [split, byteAt_split early late (by omega) (by omega), byteAt_eq_byteIn read_as]
  constructor
  · rintro ⟨occupies, length⟩
    have defined : ∀ x, max offset c.start ≤ x → x < offset + len → byteIn (c :: rest) ds x ≠ none := by
      intro x above below
      obtain ⟨i, rfl⟩ : ∃ i, x = offset + i := ⟨x - offset, by omega⟩
      rw [← bytes_at i (by omega), occupies i (by omega), List.getElem?_eq_getElem (by omega)]
      simp
    apply (agrees_of_windows spans (by omega) reaches read_as.length_eq defined resolved).2
    rw [filled, width]
  · intro agrees
    obtain ⟨length, bytes⟩ := windows_of_agrees spans (by omega) reaches agrees resolved
    rw [width] at length bytes
    refine ⟨?_, length⟩
    intro i inside
    rw [bytes_at i (by omega), ← bytes i (by omega), origin]

/-! ## Blobs the store cut itself -/

theorem start_chunkRef {hash : String} {offset : Nat} {len : UInt64} (fits : offset < 2 ^ 64) :
    (⟨hash, UInt64.ofNat offset, len⟩ : ChunkRef).start = offset := by
  simpa [ChunkRef.start] using fits

theorem size_chunkRef {hash : String} {len : Nat} {offset : UInt64} (fits : len < 2 ^ 64) :
    (⟨hash, offset, UInt64.ofNat len⟩ : ChunkRef).size = len := by
  simpa [ChunkRef.size] using fits

theorem mem_chunkRefs {pieces : List Bytes} {offset : Nat} (fits : offset + pieces.flatten.length < 2 ^ 64)
    {c : ChunkRef} (member : c ∈ chunkRefs p offset pieces) :
    ∃ piece ∈ pieces, c.blake3 = p.blake3 piece ∧ c.size = piece.length := by
  induction pieces generalizing offset with
  | nil => simp [chunkRefs] at member
  | cons piece rest ih =>
    simp only [List.flatten_cons, List.length_append] at fits
    simp only [chunkRefs, List.mem_cons] at member
    obtain rfl | later := member
    · exact ⟨piece, List.mem_cons_self .., rfl, size_chunkRef (by omega)⟩
    · obtain ⟨other, inside, named⟩ := ih (by omega) later
      exact ⟨other, List.mem_cons_of_mem _ inside, named⟩

theorem byteAt_chunkRefs {content : String → Option Bytes} {pieces : List Bytes} {offset : Nat}
    (fits : offset + pieces.flatten.length < 2 ^ 64)
    (own : ∀ piece ∈ pieces, ∀ d, content (p.blake3 piece) = some d → d = piece) {x : Nat} {b : UInt8}
    (found : byteAt content (chunkRefs p offset pieces) x = some b) :
    offset ≤ x ∧ pieces.flatten[x - offset]? = some b := by
  induction pieces generalizing offset with
  | nil => simp [chunkRefs, byteAt] at found
  | cons piece rest ih =>
    simp only [List.flatten_cons, List.length_append] at fits ⊢
    simp only [chunkRefs, byteAt, List.find?_cons] at found
    split at found
    · rename_i holds
      obtain ⟨low, high⟩ := of_decide_eq_true holds
      simp only [start_chunkRef (show offset < 2 ^ 64 by omega)] at low high found
      rw [size_chunkRef (by omega)] at high
      simp only [Option.bind_some, Option.bind_eq_some_iff] at found
      obtain ⟨d, read, at_x⟩ := found
      rw [own piece (List.mem_cons_self ..) d read, start_chunkRef (by omega)] at at_x
      rw [List.getElem?_append_left (by omega)]
      exact ⟨low, at_x⟩
    · obtain ⟨reached, later⟩ :=
        ih (by omega) (fun other inside => own other (List.mem_cons_of_mem _ inside)) found
      rw [List.getElem?_append_right (by omega), Nat.sub_sub]
      exact ⟨by omega, later⟩

theorem sublist_overlapping {offset stop : Nat} {chunks covered : List ChunkRef}
    (found : overlapping offset stop chunks = some covered) : covered.Sublist chunks := by
  induction chunks generalizing covered with
  | nil =>
    cases found
    exact List.Sublist.refl _
  | cons c rest ih =>
    by_cases starts : c.start < stop
    · obtain ⟨-, later, tail, rfl⟩ := overlapping_cons starts found
      split
      · exact (ih tail).cons_cons c
      · exact (ih tail).cons c
    · rw [overlapping, if_neg starts] at found
      cases found
      exact List.nil_sublist _

theorem slice_of_stored_stream (verified : store.Verified p) {stream : Bytes}
    (cuts : (p.cut stream).flatten = stream) (fits : stream.length < 2 ^ 64)
    (own : ∀ piece ∈ p.cut stream, ∀ hash d, store.Serves p hash d →
      eqIgnoreAsciiCase (p.blake3 d) (p.blake3 piece) = true → d = piece)
    {offset len : Nat} {bytes : Bytes} (success : (store.blobSlice p (manifestOf p stream) offset len).2 = some bytes) :
    bytes = (stream.drop offset).take len := by
  obtain ⟨valid, positive, within, chunks, windows, covered, -, resolved, filled, rfl⟩ := blobSlice_eq_some.mp success
  obtain ⟨ds, read⟩ := reads_of_resolveAll (length_readAll chunks) resolved
  rw [read] at resolved
  have served : ∀ piece ∈ p.cut stream, ∀ d, store.content p (p.blake3 piece) = some d → d = piece := by
    intro piece inside d found
    have serves := serves_of_content found
    exact own piece inside _ d serves (verified.named _ d serves)
  have bound : 0 + (p.cut stream).flatten.length < 2 ^ 64 := by rwa [cuts, Nat.zero_add]
  have agrees : List.Forall₂ (Agrees (offset + len)) chunks ds := by
    have placed := (List.forall₂_and_left ..).mpr ⟨fun _ => (sublist_overlapping covered).mem, readAll_content verified read⟩
    apply placed.imp
    rintro c d ⟨inside, found⟩
    obtain ⟨piece, member, named, sized⟩ := mem_chunkRefs bound inside
    rw [named] at found
    rw [Agrees, sized, served piece member d found]
  obtain ⟨occupies, length⟩ := (slice_windows verified valid positive within covered read resolved filled).mpr agrees
  apply List.ext_getElem?
  intro i
  by_cases inside : i < len
  · have shown := occupies i (by omega)
    rw [List.getElem?_eq_getElem (by omega)] at shown ⊢
    obtain ⟨-, at_i⟩ := byteAt_chunkRefs bound served shown
    rw [List.getElem?_take_of_lt inside, List.getElem?_drop, ← at_i, cuts, Nat.sub_zero]
  · rw [List.getElem?_eq_none (by omega), List.getElem?_eq_none (by simp; omega)]

/-! ## Stored against declared lengths -/

/-- The chunks that the manifest places, at least in part, inside `[offset, stop)`. -/
def inRange (offset stop : Nat) (chunks : List ChunkRef) : List ChunkRef :=
  chunks.filter fun c => decide (c.start < stop ∧ offset < c.start + c.size)

/-- How many bytes of `[offset, stop)` a chunk placed like `c` holds when it is `length` bytes long. -/
def share (offset stop : Nat) (c : ChunkRef) (length : Nat) : Nat := min (stop - c.start) length - (offset - c.start)

variable (p) in
/-- Whenever the chunks of the range, as they are stored, add up to it, each of them has the share of it that
the manifest declares. -/
def FillsAsDeclared (store : ChunkStore) (m : ChunkManifest) (offset len : Nat) : Prop :=
  0 < len → offset + len ≤ m.totalSize.toNat →
    ∀ ds : List Bytes, (store.readAll p (inRange offset (offset + len) m.chunks)).2 = ds.map some →
    (∀ placed ∈ (inRange offset (offset + len) m.chunks).zip ds,
      placed.1.start + placed.1.size ≤ maxU64 ∧ offset - placed.1.start ≤ placed.2.length) →
    (((inRange offset (offset + len) m.chunks).zip ds).map fun placed =>
      share offset (offset + len) placed.1 placed.2.length).sum = len →
    ∀ placed ∈ (inRange offset (offset + len) m.chunks).zip ds,
      share offset (offset + len) placed.1 placed.2.length = share offset (offset + len) placed.1 placed.1.size

theorem inRange_of_late {offset stop : Nat} {chunks : List ChunkRef} (late : ∀ c ∈ chunks, stop ≤ c.start) :
    inRange offset stop chunks = [] := by
  rw [inRange, List.filter_eq_nil_iff]
  intro c member inside
  have after := late c member
  simp only [decide_eq_true_eq] at inside
  omega

theorem overlapping_eq_some {total offset stop next : Nat} {chunks covered : List ChunkRef} (bounded : next ≤ maxU64)
    (valid : validFrom total next chunks = true) (offset_le : offset ≤ maxU64) :
    overlapping offset stop chunks = some covered ↔
      covered = inRange offset stop chunks ∧ ∀ c ∈ inRange offset stop chunks, c.start + c.size ≤ maxU64 := by
  induction chunks generalizing next covered with
  | nil => simp [overlapping, inRange, eq_comm]
  | cons c rest ih =>
    obtain ⟨rfl, positive, -, tail⟩ := validFrom_cons valid
    by_cases starts : c.start < stop
    · by_cases fits : c.start + c.size ≤ maxU64
      · have later : ∀ covered, overlapping offset stop rest = some covered ↔ covered = inRange offset stop rest ∧
            ∀ c ∈ inRange offset stop rest, c.start + c.size ≤ maxU64 := fun covered => ih (Nat.min_le_right _ _) tail
        rw [overlapping, if_pos starts, checkedAdd, if_pos fits]
        by_cases reaches : offset < c.start + c.size
        · have head : inRange offset stop (c :: rest) = c :: inRange offset stop rest :=
            List.filter_cons_of_pos (by simp [starts, reaches])
          rw [head]
          simp only [Option.bind_eq_bind, Option.bind_some, if_pos reaches, Option.bind_eq_some_iff, later,
            Option.some.injEq, List.forall_mem_cons, fits, true_and]
          constructor
          · rintro ⟨_, ⟨rfl, ends⟩, rfl⟩
            exact ⟨rfl, ends⟩
          · rintro ⟨rfl, ends⟩
            exact ⟨_, ⟨rfl, ends⟩, rfl⟩
        · have head : inRange offset stop (c :: rest) = inRange offset stop rest :=
            List.filter_cons_of_neg (by simp [reaches])
          rw [head]
          simp [if_neg reaches, later]
      · have inside : c ∈ inRange offset stop (c :: rest) := by
          simp only [inRange, List.mem_filter, List.mem_cons_self, true_and, decide_eq_true_eq]
          omega
        rw [overlapping, if_pos starts, checkedAdd, if_neg fits]
        simp only [Option.bind_eq_bind, Option.bind_none, reduceCtorEq, false_iff, not_and]
        intro _ ends
        exact fits (ends c inside)
    · have late : ∀ other ∈ c :: rest, stop ≤ other.start := by
        intro other member
        exact (Nat.le_of_not_lt starts).trans (validFrom_start_le bounded valid other member)
      rw [overlapping, if_neg starts, inRange_of_late late]
      simp [eq_comm]

def windowOf (offset stop : Nat) (placed : ChunkRef × Bytes) : SourceWindow :=
  ⟨placed.2, offset - placed.1.start, min (stop - placed.1.start) placed.2.length⟩

theorem resolve_inRange {offset stop : Nat} {c : ChunkRef} {d : Bytes}
    (inside : c.start < stop ∧ offset < c.start + c.size) (nonempty : offset < stop) :
    resolve offset stop c d = if offset - c.start ≤ d.length then some (windowOf offset stop (c, d)) else none := by
  unfold resolve windowOf
  rw [if_neg (by omega)]
  by_cases enters : offset - c.start ≤ d.length
  · rw [if_pos enters]
    exact if_neg (by omega)
  · rw [if_neg enters]
    exact if_pos (by omega)

theorem resolveAll_eq_some {offset stop : Nat} {covered : List ChunkRef} {ds : List Bytes} {windows : List SourceWindow}
    (nonempty : offset < stop) (inside : ∀ c ∈ covered, c.start < stop ∧ offset < c.start + c.size)
    (paired : ds.length = covered.length) :
    resolveAll offset stop covered (ds.map some) = some windows ↔
      (∀ placed ∈ covered.zip ds, offset - placed.1.start ≤ placed.2.length) ∧
        windows = (covered.zip ds).map (windowOf offset stop) := by
  induction covered generalizing ds windows with
  | nil => simp [resolveAll, eq_comm]
  | cons c covered ih =>
    cases ds with
    | nil => simp at paired
    | cons d ds =>
      rw [List.forall_mem_cons] at inside
      have later : ∀ windows, resolveAll offset stop covered (ds.map some) = some windows ↔
          (∀ placed ∈ covered.zip ds, offset - placed.1.start ≤ placed.2.length) ∧
            windows = (covered.zip ds).map (windowOf offset stop) :=
        fun windows => ih inside.2 (by simpa using paired)
      simp only [List.map_cons, resolveAll, resolve_inRange inside.1 nonempty, List.zip_cons_cons,
        List.forall_mem_cons, Option.bind_eq_bind, Option.bind_some]
      by_cases enters : offset - c.start ≤ d.length
      · rw [if_pos enters]
        simp only [Option.bind_some, Option.bind_eq_some_iff, later, Option.some.injEq, enters, true_and]
        constructor
        · rintro ⟨_, ⟨enter, rfl⟩, rfl⟩
          exact ⟨enter, rfl⟩
        · rintro ⟨enter, rfl⟩
          exact ⟨_, ⟨enter, rfl⟩, rfl⟩
      · simp [enters]

theorem agrees_iff_share {offset stop : Nat} {c : ChunkRef} {d : Bytes} (nonempty : offset < stop)
    (inside : c.start < stop ∧ offset < c.start + c.size) (enters : offset - c.start ≤ d.length) :
    Agrees stop c d ↔ share offset stop c d.length = share offset stop c c.size := by
  unfold Agrees share
  omega

/-- A slice that succeeds returns the bytes the manifest places in the range, exactly when chunks that add
up to the range also have, as far as it reaches, the lengths the manifest declares. -/
theorem slice_occupies_iff (verified : store.Verified p) {m : ChunkManifest} (valid : m.isValid = true)
    (offset len : Nat) :
    (∀ bytes, (store.blobSlice p m offset len).2 = some bytes →
        Occupies (store.content p) m offset bytes ∧ bytes.length = len) ↔ store.FillsAsDeclared p m offset len := by
  have tiles := ChunkManifest.validFrom_zero valid
  have total := m.totalSize.toNat_lt
  have inside : ∀ c ∈ inRange offset (offset + len) m.chunks, c.start < offset + len ∧ offset < c.start + c.size := by
    intro c member
    simpa using (List.mem_filter.mp member).2
  constructor
  · -- Filled as declared, the range is served, and what is served is right.
    intro right positive within ds read ends filled placed member
    have bound : offset ≤ maxU64 := by unfold maxU64; omega
    have paired : ds.length = (inRange offset (offset + len) m.chunks).length := by
      rw [← @length_readAll p store, read, List.length_map]
    have covered : overlapping offset (offset + len) m.chunks = some (inRange offset (offset + len) m.chunks) := by
      rw [overlapping_eq_some (Nat.zero_le _) tiles bound]
      refine ⟨rfl, ?_⟩
      intro c member
      obtain ⟨i, inside, rfl⟩ := List.getElem_of_mem member
      exact (ends _ (List.mem_iff_getElem.mpr ⟨i, by simp; omega, List.getElem_zip ..⟩)).1
    have resolved := (resolveAll_eq_some (by omega) inside paired).mpr
      ⟨fun placed member => (ends placed member).2, rfl⟩
    have sum : (((inRange offset (offset + len) m.chunks).zip ds).map (windowOf offset (offset + len)) |>.map
        SourceWindow.size).sum = len := by
      rw [List.map_map]
      exact filled
    obtain ⟨_, c, rest, _, _, first, _⟩ :=
      overlapping_split (Nat.zero_le _) tiles within (by omega) (Nat.zero_le _) covered
    have agrees := (slice_windows verified valid positive within covered read resolved sum).mp <| by
      apply right
      rw [blobSlice_eq_some]
      refine ⟨valid, positive, within, _, _, covered, ?_, by rw [read]; exact resolved, sum, rfl⟩
      rw [first]
      exact List.cons_ne_nil _ _
    have placed_in := inside placed.1 (List.of_mem_zip member).1
    exact (agrees_iff_share (by omega) placed_in (ends placed member).2).mp ((List.forall₂_iff_zip.mp agrees).2 member)
  · -- A slice that succeeds has been filled, so each window is as long as declared.
    intro fills bytes success
    obtain ⟨-, positive, within, chunks, windows, covered, -, resolved, filled, rfl⟩ := blobSlice_eq_some.mp success
    obtain ⟨ds, read⟩ := reads_of_resolveAll (length_readAll chunks) resolved
    rw [read] at resolved
    have bound : offset ≤ maxU64 := by unfold maxU64; omega
    obtain ⟨rfl, ends⟩ := (overlapping_eq_some (Nat.zero_le _) tiles bound).mp covered
    have paired : ds.length = (inRange offset (offset + len) m.chunks).length := by
      rw [← @length_readAll p store, read, List.length_map]
    obtain ⟨enters, rfl⟩ := (resolveAll_eq_some (by omega) inside paired).mp resolved
    have shares := fills positive within ds read
      (fun placed member => ⟨ends placed.1 (List.of_mem_zip member).1, enters placed member⟩)
      (by rw [List.map_map] at filled; exact filled)
    refine (slice_windows verified valid positive within covered read resolved filled).mpr ?_
    rw [List.forall₂_iff_zip]
    refine ⟨paired.symm, ?_⟩
    intro c d member
    exact (agrees_iff_share (by omega) (inside c (List.of_mem_zip member).1) (enters _ member)).mpr (shares _ member)

/-- Slices of any valid manifest are the declared bytes exactly where the stored lengths fill the range as
declared; slices of a manifest the store wrote itself are always the stream's own bytes. -/
theorem blobSlice_right_iff (verified : store.Verified p) :
    (∀ m : ChunkManifest, m.isValid = true → ∀ offset len,
      (∀ bytes, (store.blobSlice p m offset len).2 = some bytes →
        Occupies (store.content p) m offset bytes ∧ bytes.length = len) ↔ store.FillsAsDeclared p m offset len) ∧
    ∀ (writer : ChunkStore) (now : Nat) (stream : Bytes),
      (p.cut stream).flatten = stream → stream.length < 2 ^ 64 →
      (∀ piece ∈ p.cut stream, ∀ hash d, store.Serves p hash d →
        eqIgnoreAsciiCase (p.blake3 d) (p.blake3 piece) = true → d = piece) →
      ∀ offset len bytes, (store.blobSlice p (writer.storeReader p now stream).2 offset len).2 = some bytes →
        bytes = (stream.drop offset).take len := by
  constructor
  · intro m valid offset len
    exact slice_occupies_iff verified valid offset len
  · intro writer now stream cuts fits own offset len bytes success
    exact slice_of_stored_stream verified cuts fits own success

theorem row_of_serves_new {chunks : Table String (File Bytes)} {manifests : Table String (File ChunkManifest)}
    {hash : String} {d : Bytes} (served : (new chunks manifests).Serves p hash d) :
    (∃ row ∈ chunks.rows, row.2.content = d) ∧ eqIgnoreAsciiCase (p.blake3 d) hash = true := by
  obtain held | mapped := served
  · cases held
  · unfold getMmap at mapped
    split at mapped
    · simp at mapped
    · cases file : (new chunks manifests).chunkFile hash with
      | none => simp [file] at mapped
      | some bytes =>
        rw [file] at mapped
        simp only at mapped
        split at mapped
        · simp at mapped
        · split at mapped
          · rename_i same
            cases mapped
            obtain ⟨row, found, rfl⟩ := Option.map_eq_some_iff.mp file
            exact ⟨⟨_, Table.find?_eq_some.mp found, rfl⟩, same⟩
          · simp at mapped

theorem verified_new {chunks : Table String (File Bytes)} {manifests : Table String (File ChunkManifest)}
    (distinct : ∀ row ∈ chunks.rows, ∀ other ∈ chunks.rows,
      eqIgnoreAsciiCase (p.blake3 row.2.content) (p.blake3 other.2.content) = true →
        row.2.content = other.2.content) :
    (new chunks manifests).Verified p where
  named hash d served := (row_of_serves_new served).2
  distinct hash d hash' d' one two same := by
    obtain ⟨⟨row, member, rfl⟩, -⟩ := row_of_serves_new one
    obtain ⟨⟨other, inside, rfl⟩, -⟩ := row_of_serves_new two
    exact distinct row member other inside same

def twoChunks : ChunkStore :=
  new ⟨[(shortDigest [0x61, 0x62], ⟨[0x61, 0x62], 0⟩), (shortDigest [0x61], ⟨[0x61], 0⟩)], by decide +kernel⟩ .empty

def shortPrimitives : Primitives := ⟨shortDigest, fun stream => [stream], fun _ => 2⟩

theorem verified_twoChunks : twoChunks.Verified shortPrimitives := verified_new (by decide +kernel)

theorem blobSlice_of_ab :
    (twoChunks.blobSlice shortPrimitives (twoChunks.storeReader shortPrimitives 0 [0x61, 0x62]).2 1 1).2 =
        some [0x62] ∧
      ∀ bytes, (twoChunks.blobSlice shortPrimitives
          (twoChunks.storeReader shortPrimitives 0 [0x61, 0x62]).2 1 1).2 = some bytes →
        bytes = [0x62] := by
  have own : ∀ row ∈ twoChunks.chunks.rows,
      eqIgnoreAsciiCase (shortDigest row.2.content) (shortDigest [0x61, 0x62]) = true →
        row.2.content = [0x61, 0x62] := by
    have apart : eqIgnoreAsciiCase (shortDigest [0x61]) (shortDigest [0x61, 0x62]) = false := by decide +kernel
    have rows : twoChunks.chunks.rows =
        [(shortDigest [0x61, 0x62], ⟨[0x61, 0x62], 0⟩), (shortDigest [0x61], ⟨[0x61], 0⟩)] := rfl
    intro row member same
    rw [rows] at member
    rcases List.mem_cons.mp member with rfl | member
    · rfl
    · obtain rfl := List.mem_singleton.mp member
      rw [apart] at same
      cases same
  refine ⟨by decide +kernel, ?_⟩
  intro bytes success
  refine (blobSlice_right_iff verified_twoChunks).2 twoChunks 0 [0x61, 0x62] rfl (by decide) ?_ 1 1 bytes success
  intro piece member hash d served same
  obtain rfl := List.mem_singleton.mp member
  obtain ⟨⟨row, inside, rfl⟩, -⟩ := row_of_serves_new served
  exact own row inside same

/-- "ab" declared one byte long and "a" declared two: the lengths make up for each other, and the second byte
of the blob is read from the first chunk. -/
def overdeclared : ChunkManifest where
  blobHash := shortDigest [0x61, 0x62]
  totalSize := 3
  chunks := [⟨shortDigest [0x61, 0x62], 0, 1⟩, ⟨shortDigest [0x61], 1, 2⟩]

theorem slice_returns_shifted_bytes :
    twoChunks.Verified shortPrimitives ∧ overdeclared.isValid = true ∧
      (twoChunks.blobSlice shortPrimitives overdeclared 0 3).2 = some [0x61, 0x62, 0x61] ∧
      byteAt (twoChunks.content shortPrimitives) overdeclared.chunks 1 = some 0x61 ∧
      ¬ Occupies (twoChunks.content shortPrimitives) overdeclared 0 [0x61, 0x62, 0x61] := by
  have served : twoChunks.content shortPrimitives (shortDigest [0x61]) = some [0x61] := by rfl
  have second : byteAt (twoChunks.content shortPrimitives) overdeclared.chunks 1 = some 0x61 := by
    have holder : (overdeclared.chunks.find? fun c => decide (c.Holds 1)) = some ⟨shortDigest [0x61], 1, 2⟩ := rfl
    rw [byteAt, holder, Option.bind_some, served]
    rfl
  refine ⟨verified_twoChunks, by decide, by decide, second, ?_⟩
  intro occupies
  have shown := occupies 1 (by decide)
  rw [Nat.zero_add, second] at shown
  exact absurd shown (by decide)

end ChunkStore

end Soshal.Media
