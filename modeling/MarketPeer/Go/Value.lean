import MarketPeer.Lib.Outcome

/-!
# The Go values of the program

`float64` stays a parameter: a type with the operations the code uses. Whole
numbers are one reading of it, exact below 2^53. `Value` is what an
`interface{}` of the storage can hold.
-/

namespace MarketPeer

class Float64 (F : Type) where
  /-- `float64(i)` for an `int` -/
  ofInt : Int64 → F
  /-- `float64(u)` for a `uint` -/
  ofUint : UInt64 → F
  /-- `uint(f)`; out of range the result is the implementation's choice -/
  toUint : F → UInt64
  add : F → F → F
  sub : F → F → F
  lt : F → F → Bool
  le : F → F → Bool
  eq : F → F → Bool
  /-- `json.Marshal`, which refuses NaN and the infinities -/
  json : F → Option String

/-- Whole amounts. Every operation agrees with `float64` below 2^53. -/
instance : Float64 Int where
  ofInt := Int64.toInt
  ofUint u := u.toNat
  toUint n := UInt64.ofInt n
  add := (· + ·)
  sub := (· - ·)
  lt a b := decide (a < b)
  le a b := decide (a ≤ b)
  eq a b := decide (a = b)
  json n := some (toString n)

/-- A dynamic value: what JSON can carry, and the `int` of values set in Go code.
The fields of an object are in key order. -/
inductive Value (F : Type) where
  | null
  | bool (b : Bool)
  | int (i : Int64)
  | float (f : F)
  | str (s : String)
  | arr (vs : List (Value F))
  | obj (fields : List (String × Value F))

/-- The value of a field of a JSON object; Go reads a missing one as nil. -/
def Value.field {F : Type} (fields : List (String × Value F)) (name : String) : Value F :=
  (fields.find? (·.1 = name)).elim .null (·.2)

/-! ## Errors -/

/-- The error variables that the code compares with `errors.Is`. -/
inductive Sentinel where
  | keyNotFound
  | blockTooNew
  deriving DecidableEq, Repr

def Sentinel.text : Sentinel → String
  | .keyNotFound => "key not found"
  | .blockTooNew => "block is too new"

inductive Arg (F : Type) where
  | str (s : String)
  | int (i : Int64)
  | uint (u : UInt64)
  | value (v : Value F)

/-- An error as it is made: the format of `Errorf` and its arguments. `wrap` is a format
with `%w`, the wrapped error its last argument. -/
inductive GoError (F : Type) where
  | sentinel (s : Sentinel)
  | errorf (format : String) (args : List (Arg F))
  | wrap (format : String) (args : List (Arg F)) (inner : GoError F)

def GoError.is {F : Type} : GoError F → Sentinel → Bool
  | .sentinel s, t => s = t
  | .errorf _ _, _ => false
  | .wrap _ _ inner, t => inner.is t

abbrev Res (F α : Type) := Outcome (GoError F) α

def nilDeref : String := "runtime error: invalid memory address or nil pointer dereference"
def outOfRange : String := "runtime error: index out of range"
def sliceBounds : String := "runtime error: slice bounds out of range"

end MarketPeer
