import Soshal.Library.Text

/-! Chunk manifests: how a blob decomposes into content-addressed chunks.

A valid manifest tiles the blob: each chunk starts where the one before it ends
and the last ends at the blob's size. Sums of offsets and lengths are 64-bit; the
validation saturates, everything else is checked and aborts when it overflows.
-/

set_option autoImplicit false

namespace Soshal.Media

open Library.Text (byteLen isAsciiHexdigit)

abbrev Bytes := List UInt8

structure ChunkRef where
  blake3 : String
  offset : UInt64
  len : UInt64
  deriving DecidableEq

structure ChunkManifest where
  blobHash : String
  totalSize : UInt64
  chunks : List ChunkRef
  deriving DecidableEq

namespace ChunkRef

def start (c : ChunkRef) : Nat := c.offset.toNat

def size (c : ChunkRef) : Nat := c.len.toNat

/-- The chunk holds position `x` of the blob. -/
def Holds (c : ChunkRef) (x : Nat) : Prop := c.start ≤ x ∧ x < c.start + c.size

instance (c : ChunkRef) (x : Nat) : Decidable (c.Holds x) := inferInstanceAs (Decidable (_ ∧ _))

end ChunkRef

def maxU64 : Nat := 2 ^ 64 - 1

def saturatingAdd (a b : Nat) : Nat := min (a + b) maxU64

def checkedAdd (a b : Nat) : Option Nat := if a + b ≤ maxU64 then some (a + b) else none

def isValidHash (hash : String) : Bool := byteLen hash == 64 && hash.toList.all isAsciiHexdigit

/-- The loop of the validation: `next` is where the next chunk has to start. -/
def validFrom (totalSize : Nat) : Nat → List ChunkRef → Bool
  | next, [] => next == totalSize
  | next, c :: rest =>
    if c.start ≠ next ∨ c.size = 0 ∨ byteLen c.blake3 ≠ 64 then false
    else if !c.blake3.toList.all isAsciiHexdigit then false
    else if saturatingAdd c.start c.size > totalSize then false
    else validFrom totalSize (saturatingAdd c.start c.size) rest

def ChunkManifest.isValid (m : ChunkManifest) : Bool :=
  if m.totalSize = 0 then m.chunks.isEmpty else validFrom m.totalSize.toNat 0 m.chunks

theorem validFrom_cons {total next : Nat} {c : ChunkRef} {rest : List ChunkRef}
    (valid : validFrom total next (c :: rest) = true) :
    c.start = next ∧ 0 < c.size ∧ saturatingAdd next c.size ≤ total ∧
      validFrom total (saturatingAdd next c.size) rest = true := by
  unfold validFrom at valid
  split at valid
  · simp at valid
  · rename_i shape
    split at valid
    · simp at valid
    · split at valid
      · simp at valid
      · rename_i fits
        rw [not_or, not_or, not_not] at shape
        obtain ⟨rfl, nonempty, -⟩ := shape
        exact ⟨rfl, Nat.pos_of_ne_zero nonempty, Nat.le_of_not_lt fits, valid⟩

theorem ChunkManifest.validFrom_zero {m : ChunkManifest} (valid : m.isValid = true) :
    validFrom m.totalSize.toNat 0 m.chunks = true := by
  unfold isValid at valid
  split at valid
  · rename_i empty
    rw [List.isEmpty_iff.mp valid, empty]
    rfl
  · exact valid

/-- The chunks tile the positions from `next` on until they reach `stop`. -/
def Spans (stop : Nat) : Nat → List ChunkRef → Prop
  | next, [] => stop ≤ next
  | next, c :: rest => c.start = next ∧ next < stop ∧ 0 < c.size ∧ Spans stop (next + c.size) rest

theorem validFrom_start_le {total next : Nat} {chunks : List ChunkRef} (bounded : next ≤ maxU64)
    (valid : validFrom total next chunks = true) : ∀ c ∈ chunks, next ≤ c.start := by
  induction chunks generalizing next with
  | nil => simp
  | cons first rest ih =>
    obtain ⟨rfl, -, -, tail⟩ := validFrom_cons valid
    intro c member
    cases member with
    | head => exact Nat.le_refl _
    | tail _ later =>
      have after := ih (Nat.min_le_right _ _) tail c later
      omega

end Soshal.Media
