import Mathlib.Algebra.Group.Nat.Defs
import Mathlib.Data.Finset.Card
import Mathlib.Data.Finset.Insert
import Mathlib.Data.List.Nodup
import Mathlib.Data.Set.Function

/-! Signed events as every core receives them.

An event is five authored fields, the id its author hashed them to and the
signature over that id. Deserialisation checks none of this: any combination of
the seven fields can arrive, and only `Event.verify` ties them together.
-/

set_option autoImplicit false

namespace Soshal.Nostr

abbrev Bytes := List UInt8

structure UnsignedEvent where
  pubkey : Vector UInt8 32
  createdAt : UInt64
  kind : UInt16
  tags : List (List String)
  content : String
  deriving DecidableEq

structure Event extends UnsignedEvent where
  id : Vector UInt8 32
  sig : Vector UInt8 64
  deriving DecidableEq

theorem Event.eq_of_parts {first second : Event} (id : first.id = second.id) (sig : first.sig = second.sig)
    (body : first.toUnsignedEvent = second.toUnsignedEvent) : first = second := by
  cases first
  cases second
  simp only at id sig body
  rw [id, sig, body]

/-- The primitives of the `nostr` and `sha2` crates: the hash of the canonical
serialisation of the five fields, SHA-256, and BIP-340 verification. -/
structure Primitives where
  eventId : UnsignedEvent → Vector UInt8 32
  sha256 : Bytes → Vector UInt8 32
  schnorrVerify : Vector UInt8 32 → Vector UInt8 32 → Vector UInt8 64 → Bool

/-- `Event::verify`: the id is the hash of the fields and the signature signs the id. -/
def Event.verify (prims : Primitives) (e : Event) : Bool :=
  decide (e.id = prims.eventId e.toUnsignedEvent) && prims.schnorrVerify e.pubkey e.id e.sig

theorem Event.verify_iff (prims : Primitives) (e : Event) :
    e.verify prims = true ↔
      e.id = prims.eventId e.toUnsignedEvent ∧ prims.schnorrVerify e.pubkey e.id e.sig = true := by
  simp [Event.verify]

/-- `size` big-endian bytes of a number, to write digests down. -/
def beBytes (size n : Nat) : Vector UInt8 size :=
  Vector.ofFn fun i => UInt8.ofNat (n / 256 ^ (size - 1 - i.val))

/-- The primitives on the inputs that the given signed events are made of. -/
def Primitives.ofSigned (signed : List Event) : Primitives where
  eventId body := ((signed.find? fun e => e.toUnsignedEvent = body).map Event.id).getD (beBytes 32 0)
  sha256 _ := beBytes 32 0
  schnorrVerify pubkey id sig := signed.any fun e => e.pubkey = pubkey ∧ e.id = id ∧ e.sig = sig

theorem Primitives.eventId_ofSigned {signed : List Event} (distinct : (signed.map Event.toUnsignedEvent).Nodup)
    {e : Event} (member : e ∈ signed) : (Primitives.ofSigned signed).eventId e.toUnsignedEvent = e.id := by
  cases found : signed.find? fun other => other.toUnsignedEvent = e.toUnsignedEvent with
  | none =>
    have missing := List.find?_eq_none.mp found e member
    simp at missing
  | some other =>
    have body : other.toUnsignedEvent = e.toUnsignedEvent := by simpa using List.find?_some found
    have same := List.inj_on_of_nodup_map distinct (List.mem_of_find?_eq_some found) member body
    simp [Primitives.ofSigned, found, same]

theorem Primitives.verify_ofSigned {signed : List Event} (distinct : (signed.map Event.toUnsignedEvent).Nodup)
    {e : Event} (member : e ∈ signed) : e.verify (Primitives.ofSigned signed) = true := by
  rw [Event.verify_iff]
  refine ⟨(Primitives.eventId_ofSigned distinct member).symm, ?_⟩
  simp only [Primitives.ofSigned, List.any_eq_true, decide_eq_true_eq]
  exact ⟨e, member, rfl, rfl, rfl⟩

theorem Primitives.injOn_ofSigned {signed : List Event} (distinct : (signed.map Event.toUnsignedEvent).Nodup)
    (ids : (signed.map Event.id).Nodup) :
    Set.InjOn (Primitives.ofSigned signed).eventId {body | ∃ e ∈ signed, body = e.toUnsignedEvent} := by
  rintro _ ⟨first, firstMem, rfl⟩ _ ⟨second, secondMem, rfl⟩ same
  rw [Primitives.eventId_ofSigned distinct firstMem, Primitives.eventId_ofSigned distinct secondMem] at same
  rw [List.inj_on_of_nodup_map ids firstMem secondMem same]

end Soshal.Nostr
