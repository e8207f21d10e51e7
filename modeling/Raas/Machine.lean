import Mathlib.Algebra.Ring.Nat

namespace Raas

abbrev Bytes := List UInt8

def text (bytes : Bytes) : String := (String.fromUTF8? bytes.toByteArray).getD ""

/-! `u64` and `usize`.

Offsets and sizes are natural numbers. Additions that the source leaves
unguarded are reduced as release builds reduce them, and a cast to `usize`
keeps the low bits that the target's pointers have.
-/

def u64Size : Nat := 18446744073709551616

def wrappingAdd (left right : Nat) : Nat := (left + right) % u64Size

def wrappingSub (left right : Nat) : Nat := (left + u64Size - right) % u64Size

def asUsize (pointerBits value : Nat) : Nat := value % 2 ^ pointerBits

theorem mod_u64Size_lt (value : Nat) : value % u64Size < u64Size := Nat.mod_lt value (by decide)

theorem wrappingAdd_lt (left right : Nat) : wrappingAdd left right < u64Size := mod_u64Size_lt (left + right)

theorem wrappingAdd_of_lt {left right : Nat} (fits : left + right < u64Size) :
    wrappingAdd left right = left + right :=
  Nat.mod_eq_of_lt fits

theorem wrappingSub_of_le {left right : Nat} (ordered : right ≤ left) (fits : left < u64Size) :
    wrappingSub left right = left - right := by
  have shifted : left + u64Size - right = left - right + u64Size := by omega
  rw [wrappingSub, shifted, Nat.add_mod_right]
  exact Nat.mod_eq_of_lt (by omega)

theorem asUsize_of_lt {value : Nat} (fits : value < u64Size) : asUsize 64 value = value :=
  Nat.mod_eq_of_lt fits

/-- The part of `std::io::ErrorKind` that the program builds or passes on. -/
inductive ErrorKind where
  | notFound
  | notADirectory
  | permissionDenied
  | invalidInput
  | invalidData
  | unexpectedEof
  | other
deriving DecidableEq, Repr

structure IoError where
  kind : ErrorKind
  message : String
deriving DecidableEq, Repr

def IoError.other (message : String) : IoError := { kind := .other, message }

/-- How a call of the program can end without a value: with an error that it
returns, with a panic, or not at all within the fuel that the model spends. -/
inductive Fault (ε : Type) where
  | error (reason : ε)
  | panic (message : String)
  | exhausted
deriving DecidableEq

def Fault.mapError (rewrite : ε → δ) : Fault ε → Fault δ
  | .error reason => .error (rewrite reason)
  | .panic message => .panic message
  | .exhausted => .exhausted

/-- `&values[start..start + count]`, which panics when the slice leaves `values`. -/
def slice (values : Bytes) (start count : Nat) : Except (Fault ε) Bytes :=
  if start + count ≤ values.length then .ok ((values.drop start).take count)
  else .error (.panic "range end index out of range for slice")

theorem slice_ok {values : Bytes} {start count : Nat} (inside : start + count ≤ values.length) :
    (slice values start count : Except (Fault ε) Bytes) = .ok ((values.drop start).take count) :=
  if_pos inside

end Raas
