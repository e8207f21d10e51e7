import Mathlib.Data.List.Basic
import Mathlib.Tactic.Ring

namespace Raas.Data

/-! Little-endian fields of fixed width, and a reader that takes them off the
front of a byte string. -/

/-- The low `width` bytes of `value`, least significant first. -/
def leBytes : Nat → Nat → List UInt8
  | 0, _ => []
  | width + 1, value => UInt8.ofNat value :: leBytes width (value / 256)

def leValue : List UInt8 → Nat
  | [] => 0
  | byte :: rest => byte.toNat + 256 * leValue rest

def takeLe (width : Nat) (bytes : List UInt8) : Option (Nat × List UInt8) :=
  if bytes.length < width then none else some (leValue (bytes.take width), bytes.drop width)

def takeBytes (count : Nat) (bytes : List UInt8) : Option (List UInt8 × List UInt8) :=
  if bytes.length < count then none else some (bytes.take count, bytes.drop count)

@[simp] theorem leBytes_length (width value : Nat) : (leBytes width value).length = width := by
  induction width generalizing value with
  | zero => rfl
  | succ width ih => simp only [leBytes, List.length_cons, ih]

theorem leValue_leBytes {width value : Nat} (fits : value < 256 ^ width) :
    leValue (leBytes width value) = value := by
  induction width generalizing value with
  | zero =>
      rw [Nat.pow_zero] at fits
      have empty : value = 0 := by omega
      rw [empty]
      rfl
  | succ width ih =>
      have quotient : value / 256 < 256 ^ width := by
        rw [Nat.pow_succ] at fits
        omega
      rw [leBytes, leValue, ih quotient, UInt8.toNat_ofNat']
      omega

theorem leValue_append (front back : List UInt8) :
    leValue (front ++ back) = leValue front + 256 ^ front.length * leValue back := by
  induction front with
  | nil => simp [leValue]
  | cons byte front ih =>
      rw [List.cons_append, leValue, leValue, ih, List.length_cons, Nat.pow_succ]
      ring

theorem takeLe_leBytes {width value : Nat} (fits : value < 256 ^ width) (rest : List UInt8) :
    takeLe width (leBytes width value ++ rest) = some (value, rest) := by
  have length := leBytes_length width value
  have enough : ¬ (leBytes width value ++ rest).length < width := by
    rw [List.length_append]
    omega
  rw [takeLe, if_neg enough, List.take_append_of_le_length (by omega), List.take_of_length_le (by omega),
    leValue_leBytes fits, List.drop_append_of_le_length (by omega), List.drop_of_length_le (by omega),
    List.nil_append]

theorem takeBytes_append {count : Nat} {front : List UInt8} (length : front.length = count)
    (rest : List UInt8) : takeBytes count (front ++ rest) = some (front, rest) := by
  subst length
  have enough : ¬ (front ++ rest).length < front.length := by
    rw [List.length_append]
    omega
  rw [takeBytes, if_neg enough, List.take_left, List.drop_left]

/-! A record of fields, written by widths and values and read by widths alone. -/

def leFields (fields : List (Nat × Nat)) : List UInt8 :=
  fields.flatMap fun field => leBytes field.1 field.2

def takeFields : List Nat → List UInt8 → Option (List Nat × List UInt8)
  | [], bytes => some ([], bytes)
  | width :: widths, bytes => do
      let (value, rest) ← takeLe width bytes
      let (values, rest) ← takeFields widths rest
      return (value :: values, rest)

def FieldsFit : List (Nat × Nat) → Prop
  | [] => True
  | (width, value) :: fields => value < 256 ^ width ∧ FieldsFit fields

theorem takeFields_leFields {fields : List (Nat × Nat)} (fits : FieldsFit fields) (rest : List UInt8) :
    takeFields (fields.map Prod.fst) (leFields fields ++ rest) = some (fields.map Prod.snd, rest) := by
  induction fields with
  | nil => rfl
  | cons field fields ih =>
      have inner := ih fits.2
      rw [leFields] at inner
      simp only [List.map_cons, takeFields, leFields, List.flatMap_cons, List.append_assoc,
        takeLe_leBytes fits.1, inner, Option.bind_eq_bind, Option.bind_some, Option.pure_def]

/-! One field of a byte string, by its place. -/

def fieldAt (bytes : List UInt8) (position width : Nat) : Nat := leValue ((bytes.drop position).take width)

theorem fieldAt_drop (bytes : List UInt8) (base position width : Nat) :
    fieldAt bytes (base + position) width = fieldAt (bytes.drop base) position width := by
  unfold fieldAt
  rw [List.drop_drop]

/-- A field stands where the widths of the fields before it end. -/
theorem fieldAt_leFields {fields : List (Nat × Nat)} {index position width value : Nat}
    (stands : ((fields.map Prod.fst).take index).sum = position) (found : fields[index]? = some (width, value))
    (fits : value < 256 ^ width) (rest : List UInt8) :
    fieldAt (leFields fields ++ rest) position width = value := by
  subst stands
  induction fields generalizing index with
  | nil => simp at found
  | cons field fields ih =>
      have split : leFields (field :: fields) ++ rest = leBytes field.1 field.2 ++ (leFields fields ++ rest) := by
        rw [leFields, List.flatMap_cons, List.append_assoc]
        rfl
      cases index with
      | zero =>
          rw [List.getElem?_cons_zero, Option.some.injEq] at found
          subst found
          rw [split, List.take_zero, List.sum_nil, fieldAt, List.drop_zero,
            List.take_left' (leBytes_length width value), leValue_leBytes fits]
      | succ index =>
          rw [split, List.map_cons, List.take_succ_cons, List.sum_cons, fieldAt_drop,
            List.drop_left' (leBytes_length field.1 field.2)]
          exact ih (by simpa using found)

end Raas.Data
