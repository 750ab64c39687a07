import MarketPeer.Go.Value
import Mathlib.Data.List.Basic

/-!
# Bytes, hex, decimal and JSON

`hex.EncodeToString`, `strconv.Itoa` and the part of `json.Marshal` that the
ledger hashes.
-/

namespace MarketPeer

abbrev Bytes := List UInt8

def stringBytes (s : String) : Bytes := s.toUTF8.data.toList

theorem stringBytes_injective : Function.Injective stringBytes := by
  intro a b h
  rw [← String.toByteArray_inj]
  exact ByteArray.ext (Array.toList_inj.mp h)

theorem stringBytes_eq (s : String) : stringBytes s = s.toList.flatMap String.utf8EncodeChar := by
  unfold stringBytes
  rw [String.toUTF8_eq_toByteArray, ← String.utf8Encode_toList, List.utf8Encode, List.data_toByteArray,
    List.toList_toArray]

theorem stringBytes_append (s t : String) : stringBytes (s ++ t) = stringBytes s ++ stringBytes t := by
  rw [stringBytes_eq, stringBytes_eq, stringBytes_eq, String.toList_append, List.flatMap_append]

/-- Samples hash with this stand-in for SHA-256: 32 bytes, which are how long the text is, a checksum,
and its beginning. -/
def sampleSha (bs : Bytes) : Bytes :=
  (UInt8.ofNat bs.length :: bs.foldl (· + ·) 0 :: bs ++ List.replicate 32 0).take 32

theorem length_sampleSha (bs : Bytes) : (sampleSha bs).length = 32 := by
  simp [sampleSha]

/-! ## Hex -/

def hexDigit (n : Nat) : Char :=
  if n < 10 then Char.ofNat (48 + n) else Char.ofNat (87 + n)

def hexByte (b : UInt8) : List Char := [hexDigit (b.toNat / 16), hexDigit (b.toNat % 16)]

def hexEncode (bs : Bytes) : String := String.ofList (bs.flatMap hexByte)

theorem hexDigit_inj : ∀ m < 16, ∀ n < 16, hexDigit m = hexDigit n → m = n := by decide

theorem hexByte_injective : Function.Injective hexByte := by
  intro a b h
  have ha := a.toNat_lt
  have hb := b.toNat_lt
  simp only [hexByte, List.cons.injEq, and_true] at h
  have hhigh := hexDigit_inj _ (by omega) _ (by omega) h.1
  have hlow := hexDigit_inj _ (by omega) _ (by omega) h.2
  exact UInt8.toNat_inj.mp (by omega)

theorem hexEncode_injective : Function.Injective hexEncode := by
  intro a b h
  have hchars : a.flatMap hexByte = b.flatMap hexByte := String.ofList_injective h
  clear h
  induction a generalizing b with
  | nil =>
    cases b with
    | nil => rfl
    | cons y ys => cases hchars
  | cons x xs ih =>
    cases b with
    | nil => cases hchars
    | cons y ys =>
      rw [List.flatMap_cons, List.flatMap_cons] at hchars
      obtain ⟨hbyte, hrest⟩ := List.append_inj hchars rfl
      rw [hexByte_injective hbyte, ih hrest]

theorem length_hexEncode (bs : Bytes) : (hexEncode bs).length = 2 * bs.length := by
  unfold hexEncode
  rw [String.length_ofList]
  induction bs with
  | nil => rfl
  | cons b bs ih =>
    rw [List.flatMap_cons, List.length_append, ih, List.length_cons]
    simp only [hexByte, List.length_cons, List.length_nil]
    omega

/-! ## JSON -/

/-- One character inside a JSON string, with the HTML escapes that Go writes by default. -/
def jsonChar (c : Char) : List Char :=
  let u (n : Nat) : List Char :=
    ['\\', 'u', hexDigit (n / 4096), hexDigit (n / 256 % 16), hexDigit (n / 16 % 16), hexDigit (n % 16)]
  if c = '"' then ['\\', '"']
  else if c = '\\' then ['\\', '\\']
  else if c = '\n' then ['\\', 'n']
  else if c = '\r' then ['\\', 'r']
  else if c = '\t' then ['\\', 't']
  else if c.toNat < 0x20 ∨ c = '<' ∨ c = '>' ∨ c = '&' ∨ c.toNat = 0x2028 ∨ c.toNat = 0x2029 then
    u c.toNat
  else [c]

def jsonString (s : String) : String := "\"" ++ String.ofList (s.toList.flatMap jsonChar) ++ "\""

def jsonInt (i : Int64) : String := toString i.toInt
def jsonUint (u : UInt64) : String := toString u.toNat

def commaSep : List String → String
  | [] => ""
  | [s] => s
  | s :: rest => s ++ "," ++ commaSep rest

/-- `{"name":value,...}` of a struct or of a map in key order. -/
def jsonObject (fields : List (String × String)) : String :=
  "\x7b" ++ commaSep (fields.map fun f => jsonString f.1 ++ ":" ++ f.2) ++ "\x7d"

def jsonArray (parts : List String) : String := "[" ++ commaSep parts ++ "]"

def base64Digit (n : Nat) : Char :=
  if n < 26 then Char.ofNat (65 + n)
  else if n < 52 then Char.ofNat (71 + n)
  else if n < 62 then Char.ofNat (n - 4)
  else if n = 62 then '+'
  else '/'

def base64 : Bytes → List Char
  | [] => []
  | [a] => [base64Digit (a.toNat / 4), base64Digit (a.toNat % 4 * 16), '=', '=']
  | [a, b] => [base64Digit (a.toNat / 4), base64Digit (a.toNat % 4 * 16 + b.toNat / 16),
      base64Digit (b.toNat % 16 * 4), '=']
  | a :: b :: c :: rest =>
    [base64Digit (a.toNat / 4), base64Digit (a.toNat % 4 * 16 + b.toNat / 16),
      base64Digit (b.toNat % 16 * 4 + c.toNat / 64), base64Digit (c.toNat % 64)] ++ base64 rest

def jsonBytes (bs : Bytes) : String := "\"" ++ String.ofList (base64 bs) ++ "\""

mutual

/-- `json.Marshal` of a dynamic value; `none` is its error. -/
def Value.json {F : Type} [Float64 F] : Value F → Option String
  | .null => some "null"
  | .bool b => some (if b then "true" else "false")
  | .int i => some (jsonInt i)
  | .float f => Float64.json f
  | .str s => some (jsonString s)
  | .arr vs => (Value.jsonList vs).map jsonArray
  | .obj fields => (Value.jsonFields fields).map jsonObject

def Value.jsonList {F : Type} [Float64 F] : List (Value F) → Option (List String)
  | [] => some []
  | v :: vs => do
    let s ← v.json
    let rest ← Value.jsonList vs
    return s :: rest

def Value.jsonFields {F : Type} [Float64 F] : List (String × Value F) → Option (List (String × String))
  | [] => some []
  | (k, v) :: fields => do
    let s ← v.json
    let rest ← Value.jsonFields fields
    return (k, s) :: rest

end

example : hexEncode [0, 255] = "00ff" := by decide
example : jsonObject [("Nonce", "1"), ("Hex", jsonString "a\"<")] =
    "\x7b\"Nonce\":1,\"Hex\":\"a\\\"\\u003c\"\x7d" := by decide +kernel
example : jsonBytes [77, 97, 110, 77] = "\"TWFuTQ==\"" := by decide

end MarketPeer
