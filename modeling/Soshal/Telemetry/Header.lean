import Soshal.Telemetry.Window

/-! The recorder's header: what is read of it, and what a rewrite of its cursor leaves.

A map is its header and the data behind it. Reading and rewriting the header depends
on the data only through its length.
-/

set_option autoImplicit false

namespace Soshal.Telemetry

open Library.Memory
open Library.Fallible (ok_bind)
open Library.LittleEndian (Bytes leBytes leValue leValue_leBytes leValue_lt length_leBytes)

variable (o : Outside)

/-- What a header says of a map with `available` bytes behind it. -/
def view (h : Bytes) (available : Nat) : Except String HeaderView :=
  if slice h 0 8 ≠ recorderMagic then .error "recorder header invalid"
  else if slice h (headerLen - 8) headerLen ≠ (o.checksum (slice h 0 (headerLen - 8))).toList then
    .error "recorder header checksum failed"
  else .ok ⟨leValue (slice h 25 33), min (leValue (slice h 33 41)) available, h[24]?.any (· != 0)⟩

def cursored (h : Bytes) (mark : UInt8) (head len : Nat) : Bytes :=
  put (put (put h 24 [mark]) 25 (leBytes 8 head)) 33 (leBytes 8 len)

def stamped (h : Bytes) (mark : UInt8) (head len : Nat) : Bytes :=
  put (cursored h mark head len) (headerLen - 8) (o.checksum (slice (cursored h mark head len) 0 (headerLen - 8))).toList

theorem view_ok {h : Bytes} {available : Nat} {hdr : HeaderView} (valid : view o h available = .ok hdr) :
    slice h 0 8 = recorderMagic ∧ hdr.len ≤ available := by
  unfold view at valid
  split at valid
  · cases valid
  · rename_i magic
    split at valid
    · cases valid
    · cases valid
      exact ⟨not_not.mp magic, Nat.min_le_right _ _⟩

theorem view_head_lt {h : Bytes} {available : Nat} {hdr : HeaderView} (valid : view o h available = .ok hdr) :
    hdr.head < 2 ^ 64 := by
  have fixed : (slice h 25 33).length ≤ 8 := by
    rw [slice, List.length_take]
    omega
  have small : leValue (slice h 25 33) < 2 ^ 64 :=
    lt_of_lt_of_le (leValue_lt _) (Nat.pow_le_pow_right (by decide) fixed : _ ≤ 256 ^ 8)
  unfold view at valid
  split at valid
  · cases valid
  · split at valid
    · cases valid
    · cases valid
      exact small

section Header

variable {h : Bytes} (size : h.length = headerLen)
include size

theorem readHeader_append (d : Bytes) : readHeader o (h ++ d) = .ok (view o h d.length) := by
  rw [headerLen] at size
  have total : (h ++ d).length = 4096 + d.length := by rw [List.length_append, size]
  obtain ⟨mark, found⟩ : ∃ mark, h[24]? = some mark := ⟨h[24], List.getElem?_eq_getElem (by omega)⟩
  have here : (h ++ d)[24]? = some mark := by rw [List.getElem?_append_left (by omega), found]
  unfold readHeader view headerLen
  rw [if_neg (by omega), load_ok (by omega) (by omega), ok_bind, slice_append_left (by omega)]
  split
  · rfl
  · rw [load_ok (by omega) (by omega), ok_bind, load_ok (by omega) (by omega), ok_bind, slice_append_left (by omega),
      slice_append_left (by omega)]
    split
    · rfl
    · rw [loadAt_ok here, ok_bind, load_ok (by omega) (by omega), ok_bind, load_ok (by omega) (by omega), ok_bind,
        slice_append_left (by omega), slice_append_left (by omega), total, Nat.add_sub_cancel_left, found]
      rfl

section Cursored

variable (mark : UInt8) (head len : Nat)

omit o in
theorem length_marked : (put h 24 [mark]).length = 4096 := by
  rw [headerLen] at size
  rw [length_put (by simp only [List.length_singleton]; omega), size]

omit o in
theorem length_moved : (put (put h 24 [mark]) 25 (leBytes 8 head)).length = 4096 := by
  have marked := length_marked size mark
  rw [length_put (by rw [length_leBytes]; omega), marked]

omit o in
theorem length_cursored : (cursored h mark head len).length = 4096 := by
  have moved := length_moved size mark head
  rw [cursored, length_put (by rw [length_leBytes]; omega), moved]

omit o in
theorem cursored_magic : slice (cursored h mark head len) 0 8 = slice h 0 8 := by
  have marked := length_marked size mark
  have moved := length_moved size mark head
  rw [headerLen] at size
  rw [cursored, slice_put_before (by rw [length_leBytes]; omega) (by omega),
    slice_put_before (by rw [length_leBytes]; omega) (by omega),
    slice_put_before (by simp only [List.length_singleton]; omega) (by omega)]

omit o in
theorem cursored_mark : (cursored h mark head len)[24]? = some mark := by
  have marked := length_marked size mark
  have moved := length_moved size mark head
  rw [headerLen] at size
  rw [cursored, getElem?_put (by rw [length_leBytes]; omega), if_pos (by omega),
    getElem?_put (by rw [length_leBytes]; omega), if_pos (by omega),
    getElem?_put (by simp only [List.length_singleton]; omega), if_neg (by omega), if_pos (by simp)]
  rfl

omit o in
theorem cursored_head : slice (cursored h mark head len) 25 33 = leBytes 8 head := by
  have marked := length_marked size mark
  have moved := length_moved size mark head
  have written : slice (put (put h 24 [mark]) 25 (leBytes 8 head)) 25 (25 + (leBytes 8 head).length) = leBytes 8 head :=
    slice_put_self (by rw [length_leBytes]; omega)
  rw [cursored, slice_put_before (by rw [length_leBytes]; omega) (by omega)]
  rwa [length_leBytes] at written

omit o in
theorem cursored_len : slice (cursored h mark head len) 33 41 = leBytes 8 len := by
  have moved := length_moved size mark head
  have written : slice (cursored h mark head len) 33 (33 + (leBytes 8 len).length) = leBytes 8 len :=
    slice_put_self (by rw [length_leBytes]; omega)
  rwa [length_leBytes] at written

end Cursored

theorem digest_inside (mark : UInt8) (head len : Nat) :
    headerLen - 8 + (o.checksum (slice (cursored h mark head len) 0 (headerLen - 8))).toList.length ≤
      (cursored h mark head len).length := by
  rw [Vector.length_toList, length_cursored size, headerLen]

theorem length_stamped (mark : UInt8) (head len : Nat) : (stamped o h mark head len).length = headerLen := by
  rw [stamped, length_put (digest_inside o size mark head len), length_cursored size, headerLen]

theorem stamped_before (mark : UInt8) (head len start stop : Nat) (early : stop ≤ 4088) :
    slice (stamped o h mark head len) start stop = slice (cursored h mark head len) start stop :=
  slice_put_before (digest_inside o size mark head len) early

theorem stamped_magic (mark : UInt8) (head len : Nat) : slice (stamped o h mark head len) 0 8 = slice h 0 8 := by
  rw [stamped_before o size mark head len 0 8 (by omega), cursored_magic size]

theorem view_stamped {mark : UInt8} {head len : Nat} (magic : slice h 0 8 = recorderMagic) (small : head < 2 ^ 64)
    (smallLen : len < 2 ^ 64) (available : Nat) :
    view o (stamped o h mark head len) available = .ok ⟨head, min len available, mark != 0⟩ := by
  have before := stamped_before o size mark head len
  have digest : slice (stamped o h mark head len) (headerLen - 8) headerLen =
      (o.checksum (slice (cursored h mark head len) 0 (headerLen - 8))).toList := by
    have written := slice_put_self (digest_inside o size mark head len)
    rwa [Vector.length_toList] at written
  have found : (stamped o h mark head len)[24]? = some mark := by
    rw [stamped, getElem?_put (digest_inside o size mark head len), if_pos (by rw [headerLen]; omega),
      cursored_mark size]
  rw [view, stamped_magic o size, magic, digest, before 0 (headerLen - 8) (by rw [headerLen]),
    before 25 33 (by omega), before 33 41 (by omega), found, cursored_head size, cursored_len size, leValue_leBytes (by omega), leValue_leBytes (by omega)]
  simp

theorem stamp_append (d : Bytes) (mark : UInt8) (head len : Nat) :
    (do
      let mmap ← store (h ++ d) 24 [mark]
      let mmap ← store mmap 25 (leBytes 8 head)
      let mmap ← store mmap 33 (leBytes 8 len)
      let covered ← load mmap 0 (headerLen - 8)
      store mmap (headerLen - 8) (o.checksum covered).toList) = .ok (stamped o h mark head len ++ d) := by
  have marked := length_marked size mark
  have moved := length_moved size mark head
  have cursor := length_cursored size mark head len
  have digest := digest_inside o size mark head len
  have header : headerLen = 4096 := rfl
  rw [store_ok (by rw [List.length_append, List.length_singleton]; omega), ok_bind,
    put_append_left (by rw [List.length_singleton]; omega),
    store_ok (by rw [List.length_append, length_leBytes]; omega), ok_bind, put_append_left (by rw [length_leBytes]; omega),
    store_ok (by rw [List.length_append, length_leBytes]; omega), ok_bind, put_append_left (by rw [length_leBytes]; omega),
    ← cursored, load_ok (by omega) (by rw [List.length_append]; omega), ok_bind, slice_append_left (by omega)]
  rw [store_ok (by rw [List.length_append]; omega), put_append_left digest]
  rfl

theorem writeHeaderState_append (d : Bytes) (head len : Nat) :
    writeHeaderState o (h ++ d) head len = .ok (stamped o h 0 head len ++ d) := by
  have marked := length_marked size 0
  have moved := length_moved size 0 head
  have cursor := length_cursored size 0 head len
  have full := length_stamped o size 0 head len
  have total : (h ++ d).length = 4096 + d.length := by rw [List.length_append, size, headerLen]
  have whole : slice (h ++ d) 0 headerLen = h := by
    rw [slice_append_left (by omega), slice, List.drop_zero, List.take_of_length_le (by omega)]
  unfold writeHeaderState
  rw [load_ok (by omega) (by rw [headerLen]; omega), ok_bind, whole,
    store_ok (by rw [size, headerLen, List.length_singleton]; omega), ok_bind,
    store_ok (by rw [length_leBytes]; omega), ok_bind, store_ok (by rw [length_leBytes]; omega), ok_bind,
    ← cursored]
  rw [load_ok (by omega) (by rw [headerLen]; omega), ok_bind, store_ok (digest_inside o size 0 head len), ok_bind]
  change store (h ++ d) 0 (stamped o h 0 head len) = _
  rw [store_ok (by rw [full, headerLen]; omega), put, List.take_zero, List.nil_append, full, Nat.zero_add, ← size,
    List.drop_left]

end Header

section Reading

variable {h d : Bytes} (size : h.length = headerLen) (mapped : headerLen + d.length < 2 ^ 63)
include size

omit o in
theorem slice_data {len : Nat} : slice (h ++ d) headerLen (headerLen + len) = d.take len := by
  rw [slice_append_right (by omega), size, Nat.sub_self, Nat.add_sub_cancel_left, slice, List.drop_zero, Nat.sub_zero]

include mapped

theorem readAll_append :
    readAll o (h ++ d) = .ok ((view o h d.length).map fun hdr => parse (d.take hdr.len)) := by
  have total : (h ++ d).length = headerLen + d.length := by rw [List.length_append, size]
  rw [readAll, readHeader_append o size, ok_bind]
  cases valid : view o h d.length with
  | error text => rfl
  | ok hdr =>
    have inside : hdr.len ≤ d.length := (view_ok o valid).2
    dsimp only
    rw [add_ok (by omega), ok_bind, readFrom_eq (by omega) (by omega) (by omega), ok_bind, slice_data size]
    rfl

theorem info_append : info o (h ++ d) =
    .ok ((view o h d.length).map fun hdr => ⟨d.length, hdr.len, count (d.take hdr.len), hdr.isSealed⟩) := by
  have total : (h ++ d).length = headerLen + d.length := by rw [List.length_append, size]
  rw [info, readHeader_append o size, ok_bind]
  cases valid : view o h d.length with
  | error text => rfl
  | ok hdr =>
    have inside : hdr.len ≤ d.length := (view_ok o valid).2
    dsimp only
    rw [countEntries, add_ok (by omega), ok_bind, countFrom_eq (by omega) (by omega) (by omega), ok_bind,
      slice_data size, total, Nat.add_sub_cancel_left]
    rfl

end Reading

def titled (capacity : Nat) : Bytes :=
  put (put (put (put (List.replicate headerLen 0) 0 recorderMagic) 8 (leBytes 4 recorderVersion)) 12 (leBytes 4 capacity)) 16
    (leBytes 8 headerLen)

theorem length_fields (capacity : Nat) :
    (put (List.replicate headerLen 0) 0 recorderMagic).length = 4096 ∧
      (put (put (List.replicate headerLen 0) 0 recorderMagic) 8 (leBytes 4 recorderVersion)).length = 4096 ∧
        (put (put (put (List.replicate headerLen 0) 0 recorderMagic) 8 (leBytes 4 recorderVersion)) 12
          (leBytes 4 capacity)).length = 4096 := by
  have first : (put (List.replicate headerLen 0) 0 recorderMagic).length = 4096 := by
    rw [length_put (by rw [List.length_replicate]; decide), List.length_replicate, headerLen]
  have second :
      (put (put (List.replicate headerLen 0) 0 recorderMagic) 8 (leBytes 4 recorderVersion)).length = 4096 := by
    rw [length_put (by rw [length_leBytes]; omega), first]
  exact ⟨first, second, by rw [length_put (by rw [length_leBytes]; omega), second]⟩

theorem length_titled (capacity : Nat) : (titled capacity).length = headerLen := by
  have third := (length_fields capacity).2.2
  rw [titled, length_put (by rw [length_leBytes]; omega), third, headerLen]

theorem titled_magic (capacity : Nat) : slice (titled capacity) 0 8 = recorderMagic := by
  obtain ⟨first, second, third⟩ := length_fields capacity
  have magic : slice (put (List.replicate headerLen 0) 0 recorderMagic) 0 (0 + recorderMagic.length) = recorderMagic :=
    slice_put_self (by rw [List.length_replicate]; decide)
  rw [titled, slice_put_before (by rw [length_leBytes]; omega) (by omega),
    slice_put_before (by rw [length_leBytes]; omega) (by omega),
    slice_put_before (by rw [length_leBytes]; omega) (by omega)]
  exact magic

theorem writeHeader_append {m : Bytes} {n : Nat} (long : m.length = headerLen + n) (capacity : Nat) :
    writeHeader o m capacity = .ok (stamped o (titled capacity) 0 headerLen 0 ++ List.replicate n 0) := by
  obtain ⟨first, second, third⟩ := length_fields capacity
  have zeros : (List.replicate headerLen (0 : UInt8)).length = 4096 := by rw [List.length_replicate, headerLen]
  have magic : recorderMagic.length = 8 := rfl
  unfold writeHeader
  dsimp only
  rw [long, List.replicate_add,
    store_ok (by rw [List.length_append, magic]; omega), ok_bind, put_append_left (by omega),
    store_ok (by rw [List.length_append, length_leBytes]; omega), ok_bind, put_append_left (by rw [length_leBytes]; omega),
    store_ok (by rw [List.length_append, length_leBytes]; omega), ok_bind, put_append_left (by rw [length_leBytes]; omega),
    store_ok (by rw [List.length_append, length_leBytes]; omega), ok_bind, put_append_left (by rw [length_leBytes]; omega)]
  exact stamp_append o (length_titled capacity) (List.replicate n 0) 0 headerLen 0

def fresh (cap : Nat) : Bytes := stamped o (titled cap) 0 headerLen 0 ++ List.replicate cap 0

theorem view_fresh {cap : Nat} (small : headerLen + cap < 2 ^ 64) :
    view o (stamped o (titled cap) 0 headerLen 0) cap = .ok ⟨headerLen, 0, false⟩ := by
  rw [view_stamped o (length_titled cap) (titled_magic cap) (by omega) (by omega), Nat.zero_min]
  rfl

/-- A file that has its size is mapped as it is when its header is valid, and otherwise reset. -/
theorem openMap_ok {h d : Bytes} (size : h.length = headerLen) {os : Opening} (mapped : os.maps = .ok ())
    (small : headerLen + d.length < 2 ^ 63) : openMap o (h ++ d) d.length os =
      .ok (os.key, match view o h d.length with
        | .ok _ => h ++ d
        | .error _ => fresh o d.length) := by
  have total : (h ++ d).length = headerLen + d.length := by rw [List.length_append, size]
  unfold openMap
  rw [mapped]
  simp only [Except.mapError]
  rw [total, if_neg (by omega), readHeader_append o size, ok_bind]
  cases view o h d.length with
  | ok hdr => rfl
  | error text =>
    dsimp only
    rw [writeHeader_append o total, ok_bind]
    rfl

theorem openMap_opened {file m : Bytes} {cap : Nat} {os : Opening} {key : Vector UInt8 32}
    (opened : openMap o file cap os = .ok (.ok key, m)) : os.maps = .ok () ∧ file.length < 2 ^ 63 := by
  unfold openMap at opened
  cases maps : os.maps with
  | error text =>
    rw [maps] at opened
    cases opened
  | ok u =>
    refine ⟨rfl, ?_⟩
    by_contra large
    rw [maps] at opened
    simp only [Except.mapError] at opened
    rw [if_pos (not_lt.mp large)] at opened
    cases opened

theorem init_opened {file m : Bytes} {capacityBytes : Nat} {os : Opening} {key : Vector UInt8 32}
    (opened : init o file capacityBytes os = .ok (.ok key, m)) :
    openMap o (resize file (headerLen + max capacityBytes (64 * 1024))) (max capacityBytes (64 * 1024)) os =
      .ok (.ok key, m) := by
  unfold init at opened
  cases opens : os.opens with
  | error text =>
    rw [opens] at opened
    cases opened
  | ok u =>
    rw [opens] at opened
    simp only [Except.mapError] at opened
    by_cases small : headerLen + max capacityBytes (64 * 1024) < 2 ^ 64
    · rw [add_ok small, ok_bind] at opened
      cases measures : os.measures with
      | error text =>
        rw [measures] at opened
        cases opened
      | ok u =>
        rw [measures] at opened
        dsimp only at opened
        split at opened
        · cases opened
        · exact opened
    · rw [add, if_neg small] at opened
      cases opened

theorem length_resize (file : Bytes) (total : Nat) : (resize file total).length = total := by
  rw [resize, List.length_append, List.length_take, List.length_replicate]
  omega

theorem view_zeros (available : Nat) :
    view o (List.replicate headerLen 0) available = .error "recorder header invalid" := by
  have first : slice (List.replicate headerLen (0 : UInt8)) 0 8 = List.replicate 8 0 := by
    rw [slice, List.drop_zero, List.take_replicate]
    rfl
  rw [view, first, if_pos (by decide)]

theorem openMap_new {cap : Nat} {os : Opening} (mapped : os.maps = .ok ()) (small : headerLen + cap < 2 ^ 63) :
    openMap o (resize [] (headerLen + cap)) cap os = .ok (os.key, fresh o cap) := by
  have zeros : resize [] (headerLen + cap) = List.replicate headerLen 0 ++ List.replicate cap 0 := by
    rw [resize, List.take_nil, List.nil_append, List.length_nil, Nat.sub_zero, List.replicate_add]
  have done := openMap_ok o (h := List.replicate headerLen 0) (d := List.replicate cap 0) List.length_replicate mapped
    (by rwa [List.length_replicate])
  rwa [List.length_replicate, ← zeros, view_zeros] at done

theorem init_new {m : Bytes} {capacityBytes : Nat} {os : Opening} {key : Vector UInt8 32}
    (opened : init o [] capacityBytes os = .ok (.ok key, m)) :
    headerLen + max capacityBytes (64 * 1024) < 2 ^ 63 ∧ m = fresh o (max capacityBytes (64 * 1024)) := by
  have mapped := init_opened o opened
  obtain ⟨maps, small⟩ := openMap_opened o mapped
  rw [length_resize] at small
  rw [openMap_new o maps small] at mapped
  refine ⟨small, ?_⟩
  injection mapped with pair
  injection pair with _ same
  exact same.symm

theorem init_succeeds {capacityBytes : Nat} (small : headerLen + max capacityBytes (64 * 1024) < 2 ^ 63)
    (key : Vector UInt8 32) : init o [] capacityBytes ⟨.ok (), .ok (), .ok (), .ok (), .ok key⟩ =
      .ok (.ok key, fresh o (max capacityBytes (64 * 1024))) := by
  unfold init
  simp only [Except.mapError]
  rw [add_ok (by omega), ok_bind, ite_self]
  exact openMap_new o rfl small

end Soshal.Telemetry
