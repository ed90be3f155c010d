import Soshal.Crypto.Ideal

/-! How deep in a session a key was derived.

The opening of a session derives the first root from a secret that only the two
parties hold; every later epoch derives a root and a chain from the root before
it, with whatever secret was decapsulated. Under an ideal KDF a root, a chain and
a message key each determine the epoch, and a message key also its position.
-/

set_option autoImplicit false

namespace Soshal.Crypto

open Library
open Library.KeyChain (chainAt keyAt)

variable {Key Sk Secret Seed : Type} (p : Primitives Key Sk Secret Seed) (held : Secret → Prop) (context : String)

inductive RootAt : Nat → Key → Prop where
  | opening {secret : Secret} : held secret → RootAt 1 (p.initRoot secret context)
  | step {n : Nat} {root : Key} (secret : Secret) : RootAt n root →
      RootAt (n + 1) (p.deriveRootStep secret root context).1

inductive BaseAt : Nat → Key → Prop where
  | opening {secret : Secret} : held secret → BaseAt 1 (p.deriveChain (p.initRoot secret context) context)
  | step {n : Nat} {root : Key} (secret : Secret) : RootAt p held context n root →
      BaseAt (n + 1) (p.deriveRootStep secret root context).2

def KeyAt (n i : Nat) (key : Key) : Prop :=
  ∃ base, BaseAt p held context n base ∧ key = keyAt (chainStep p context) base i

variable {p} {held} {context}

theorem RootAt.positive {n : Nat} {root : Key} (depth : RootAt p held context n root) : 0 < n := by
  cases depth with
  | opening => exact Nat.one_pos
  | step => exact Nat.succ_pos _

theorem BaseAt.positive {n : Nat} {base : Key} (depth : BaseAt p held context n base) : 0 < n := by
  cases depth with
  | opening => exact Nat.one_pos
  | step => exact Nat.succ_pos _

theorem KeyAt.positive {n i : Nat} {key : Key} (depth : KeyAt p held context n i key) : 0 < n := by
  obtain ⟨base, based, _⟩ := depth
  exact based.positive

/-- What a party reaches from its root and a secret: the opening if it has none, else the next epoch. -/
theorem advanceRoot_opening {secret : Secret} (kept : held secret) :
    RootAt p held context 1 (advanceRoot p none secret context).1 ∧
      BaseAt p held context 1 (advanceRoot p none secret context).2 :=
  ⟨.opening kept, .opening kept⟩

theorem advanceRoot_step {n : Nat} {root : Key} (depth : RootAt p held context n root) (secret : Secret) :
    RootAt p held context (n + 1) (advanceRoot p (some root) secret context).1 ∧
      BaseAt p held context (n + 1) (advanceRoot p (some root) secret context).2 :=
  ⟨.step secret depth, .step secret depth⟩

section Unique

variable (ideal : Ideal p)

include ideal

theorem RootAt.unique {n m : Nat} {root : Key} (depth : RootAt p held context n root)
    (other : RootAt p held context m root) : n = m := by
  -- Induction on one derivation, cases on the other: equal outputs have equal last steps.
  generalize same : root = twin at other
  induction depth generalizing m twin with
  | opening =>
    cases other with
    | opening => rfl
    | step => cases ideal.separates (x := .initRoot _ _) (y := .stepRoot _ _ _) same
  | step secret before ih =>
    cases other with
    | opening => cases ideal.separates (x := .stepRoot _ _ _) (y := .initRoot _ _) same
    | step secret' before' =>
      cases ideal.separates (x := .stepRoot _ _ _) (y := .stepRoot _ _ _) same
      exact congrArg (· + 1) (ih _ rfl before')

theorem BaseAt.unique {n m : Nat} {base : Key} (depth : BaseAt p held context n base)
    (other : BaseAt p held context m base) : n = m := by
  generalize same : base = twin at other
  cases depth with
  | opening =>
    cases other with
    | opening => rfl
    | step => cases ideal.separates (x := .chain _ _) (y := .stepChain _ _ _) same
  | step secret before =>
    cases other with
    | opening => cases ideal.separates (x := .stepChain _ _ _) (y := .chain _ _) same
    | step secret' before' =>
      cases ideal.separates (x := .stepChain _ _ _) (y := .stepChain _ _ _) same
      exact congrArg (· + 1) (before.unique ideal before')

theorem BaseAt.fresh {n : Nat} {base : Key} (depth : BaseAt p held context n base) (chain : Key) :
    (chainStep p context chain).2 ≠ base := by
  intro same
  cases depth with
  | opening => cases ideal.separates (x := .nextChain _ _) (y := .chain _ _) same
  | step => cases ideal.separates (x := .nextChain _ _) (y := .stepChain _ _ _) same

theorem next_inj (chain other : Key) (same : (chainStep p context chain).2 = (chainStep p context other).2) :
    chain = other := by
  cases ideal.separates (x := .nextChain _ _) (y := .nextChain _ _) same
  rfl

theorem KeyAt.unique {n m i j : Nat} {key : Key} (depth : KeyAt p held context n i key)
    (other : KeyAt p held context m j key) : n = m ∧ i = j := by
  obtain ⟨base, based, rfl⟩ := depth
  obtain ⟨base', based', same⟩ := other
  obtain ⟨rfl, position⟩ := KeyChain.keyAt_inj (next_inj ideal) (fun _ _ keys => (ideal.key_context keys).1)
    (based.fresh ideal) (based'.fresh ideal) same
  exact ⟨based.unique ideal based', position⟩

end Unique

end Soshal.Crypto
