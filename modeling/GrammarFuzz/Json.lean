import GrammarFuzz.Word

/-!
# JSON values

Integers and binary floating-point numbers are kept apart: a value that was
written as an integer stays one.  Floating-point numbers are finite.  Objects list
their members in order; every object this library builds has distinct keys.
-/

namespace GrammarFuzz

inductive Json where
  | null
  | bool (b : Bool)
  | int (n : Int)
  | float (x : Float) (finite : x.isFinite = true)
  | string (w : Word)
  | array (items : List Json)
  | object (members : List (Word × Json))
deriving Inhabited

namespace Json

/-- A floating-point number as a value; there is none for those that are not finite. -/
def ofFloat (x : Float) : Json :=
  if h : x.isFinite = true then .float x h else .null

/-!
## Equality

Arrays are compared in order, objects as maps.  An integer never equals a
floating-point number.
-/

mutual

def same : Json → Json → Bool
  | .null, .null => true
  | .bool a, .bool b => a == b
  | .int a, .int b => a == b
  | .float a _, .float b _ => a == b
  | .string a, .string b => a == b
  | .array a, .array b => sameItems a b
  | .object a, .object b => a.length == b.length && membersWithin a b
  | _, _ => false

def sameItems : List Json → List Json → Bool
  | [], [] => true
  | a :: as, b :: bs => same a b && sameItems as bs
  | _, _ => false

/-- Whether each member on the left has an equal one of its own under its key on the right. -/
def membersWithin : List (Word × Json) → List (Word × Json) → Bool
  | [], _ => true
  | (key, value) :: rest, other =>
      (match other.lookup key with
        | some value' => same value value'
        | none => false) && membersWithin rest (other.eraseP fun member => member.1 == key)

end

theorem unpacked_beq_self {x : Float.Model.UnpackedFloat} (h : x.isFinite = true) :
    x.beq x = true := by
  cases x with
  | infinity sign => cases h
  | notANumber => cases h
  | zero sign => rfl
  | finite sign mantissa exponent hpos =>
      have hcompare : (compare exponent exponent).then (compare mantissa mantissa) = .eq := by
        have hexponent : compare exponent exponent = .eq := Std.ReflCmp.compare_self
        have hmantissa : compare mantissa mantissa = .eq := Std.ReflCmp.compare_self
        rw [hexponent, hmantissa]
        rfl
      cases sign with
      | positive => exact beq_iff_eq.mpr (congrArg some hcompare)
      | negative => exact beq_iff_eq.mpr (congrArg (fun o => some (Ordering.swap o)) hcompare)

theorem beq_self_of_isFinite {x : Float} (h : x.isFinite = true) : (x == x) = true :=
  unpacked_beq_self h

mutual

theorem same_self (v : Json) : same v v = true := by
  cases v with
  | null => rfl
  | bool b => exact beq_self_eq_true b
  | int n => exact beq_self_eq_true n
  | float x finite => exact beq_self_of_isFinite finite
  | string w => exact beq_self_eq_true w
  | array items => exact sameItems_self items
  | object members =>
      rw [same, membersWithin_self members, beq_self_eq_true]
      rfl

theorem sameItems_self (items : List Json) : sameItems items items = true := by
  cases items with
  | nil => rfl
  | cons v rest =>
      rw [sameItems, same_self v, sameItems_self rest]
      rfl

theorem membersWithin_self (members : List (Word × Json)) :
    membersWithin members members = true := by
  cases members with
  | nil => rfl
  | cons member rest =>
      rcases member with ⟨key, value⟩
      have hrest : ((key, value) :: rest).eraseP (fun member => member.1 == key) = rest :=
        List.eraseP_cons_of_pos (beq_self_eq_true key)
      rw [membersWithin, List.lookup_cons_self, hrest, membersWithin_self rest]
      dsimp only
      rw [same_self value]
      rfl

end

end Json
end GrammarFuzz
