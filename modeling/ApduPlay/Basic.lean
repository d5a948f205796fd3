import Mathlib.Algebra.Ring.Int.Defs
import Mathlib.Algebra.Ring.Nat
import Mathlib.Data.BitVec
import Mathlib.Data.Int.Notation

/-!
# Common types of the library

Texts, machine words and the status codes that the intercepted functions and
their helpers return.
-/

namespace ApduPlay

/-- A `std::string`. -/
abbrev Text := List UInt8

/-- A string literal of the source. -/
def ascii (s : String) : Text := s.toList.map fun c => c.toNat.toUInt8

/-- A `LONG` or `int` status. -/
abbrev Status := UInt32

/-- `SCARD_S_SUCCESS` -/
def scardSSuccess : Status := 0

/-- `SCARD_E_INSUFFICIENT_BUFFER` -/
def scardEInsufficientBuffer : Status := 0x80100008

/-- `SCARD_F_COMM_ERROR` -/
def scardFCommError : Status := 0x80100013

/-- `SCARD_E_NO_READERS_AVAILABLE` -/
def scardENoReadersAvailable : Status := 0x8010002E

/-- `STAT_OK` -/
def statOk : Status := 0

/-- `STAT_NOT_ENOUGHT_MEMORY` -/
def statNotEnoughtMemory : Status := 3

/-- An `int` that is too large wraps around. -/
def wrapInt (n : ℤ) : ℤ := n.bmod (2 ^ 32)

/-- Values of an `int`. -/
def IsInt (n : ℤ) : Prop := -2 ^ 31 ≤ n ∧ n < 2 ^ 31

/-- A length that is too large for an `int` is negative, or starts again at zero. -/
theorem wrapInt_natCast {n : ℕ} (h : n < 2 ^ 32 + 2 ^ 31) :
    wrapInt n = if n < 2 ^ 31 then (n : ℤ) else n - 2 ^ 32 := by
  rw [wrapInt, Int.bmod_def]
  split_ifs <;> omega

/-- An `int` that is not too large stays as it is. -/
theorem wrapInt_eq {n : ℤ} (h : IsInt n) : wrapInt n = n :=
  Int.bmod_eq_of_le h.1 h.2

theorem isInt_wrapInt (n : ℤ) : IsInt (wrapInt n) :=
  ⟨Int.le_bmod (by decide), Int.bmod_lt (by decide)⟩

/-- It does not matter when a sum wraps around. -/
theorem wrapInt_add (m n : ℤ) : wrapInt (wrapInt m + n) = wrapInt (m + n) :=
  Int.bmod_add_bmod

/-- An `int` of the log parser. Behind its greatest value comes its least. -/
abbrev JavaInt := BitVec 32

/-- The value of a counter. -/
theorem JavaInt.toInt_natCast (n : ℕ) : (n : JavaInt).toInt = wrapInt n :=
  BitVec.toInt_ofNat n

/-- A counter is right as long as it does not reach its limit. -/
theorem JavaInt.toInt_natCast_eq_iff {n : ℕ} : (n : JavaInt).toInt = n ↔ n < 2 ^ 31 := by
  rw [toInt_natCast]
  constructor
  · intro h
    have hlt := (isInt_wrapInt n).2
    omega
  · intro h
    exact wrapInt_eq ⟨by omega, by omega⟩

/-- Ways in which the native code can go wrong beyond any status. -/
inductive Fault
  /-- Access outside an object. -/
  | outOfBounds
  /-- `std::out_of_range` thrown and not caught. -/
  | outOfRange
  /-- Null pointer used. -/
  | nullPointer
  /-- Division or modulo by zero. -/
  | divisionByZero
  /-- A loop that never ends. -/
  | endlessLoop
  deriving DecidableEq, Repr

/-- A computation goes on after a step without a fault. -/
theorem Fault.bind_ok {α β : Type} {e : Except Fault α} {g : α → Except Fault β} {a : α}
    (he : e = .ok a) : (e >>= g) = g a := by
  rw [he]
  rfl

/-- A computation that succeeds did its first step. -/
theorem Fault.of_bind_ok {α β : Type} {e : Except Fault α} {g : α → Except Fault β} {b : β}
    (h : (e >>= g) = .ok b) : ∃ a, e = .ok a ∧ g a = .ok b := by
  cases e with
  | error x => cases h
  | ok a => exact ⟨a, rfl, h⟩

/-- A computation ends with the fault of its first step. -/
theorem Fault.bind_error {α β : Type} {e : Except Fault α} {g : α → Except Fault β} {x : Fault}
    (he : e = .error x) : (e >>= g) = .error x := by
  rw [he]
  rfl

/-- Only a step without a fault is followed by another one. -/
theorem Fault.bind_congr {α β : Type} {e : Except Fault α} {g g' : α → Except Fault β}
    (h : ∀ a, e = .ok a → g a = g' a) : (e >>= g) = (e >>= g') := by
  cases e with
  | error x => rfl
  | ok a => exact h a rfl

theorem Fault.bind_eq_ok {α β : Type} {e : Except Fault α} {g : α → Except Fault β} {b : β} :
    (e >>= g) = .ok b ↔ ∃ a, e = .ok a ∧ g a = .ok b :=
  ⟨of_bind_ok, fun ⟨_, he, hg⟩ => (bind_ok he).trans hg⟩

theorem Fault.map_bind {α β γ : Type} (e : Except Fault α) (g : α → Except Fault β) (f : β → γ) :
    (e >>= g).map f = e >>= fun a => (g a).map f := by
  cases e <;> rfl

/-- Handle of a card. -/
abbrev CardHandle := UInt64

/-- Handle of a context. -/
abbrev CardContext := UInt64

end ApduPlay
