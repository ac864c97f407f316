import DumboDB.Types.Value

/-!
Database names with a ref: `mydb@main` names the branch `main` of `mydb`, with the ref
percent-encoded, and a name whose suffix has only digits names no ref.
-/

namespace DumboDB.Backends

open Foundation ByteOrder DumboDB.Types

def hexDigit (b : UInt8) : Option UInt8 :=
  if 48 ≤ b ∧ b ≤ 57 then some (b - 48)
  else if 97 ≤ b ∧ b ≤ 102 then some (b - 87)
  else if 65 ≤ b ∧ b ≤ 70 then some (b - 55)
  else none

/-- `url.PathUnescape`: a percent sign that two hexadecimal digits do not follow is an error. -/
def pathUnescape : Bytes → Option Bytes
  | [] => some []
  | 37 :: high :: low :: rest =>
    match hexDigit high, hexDigit low with
    | some h, some l => (pathUnescape rest).map fun decoded => (h * 16 + l) :: decoded
    | _, _ => none
  | b :: rest => if b = 37 then none else (pathUnescape rest).map fun decoded => b :: decoded

def rootishAllDigits (s : Bytes) : Bool :=
  s ≠ [] && s.length ≠ 32 && s.all fun b => 48 ≤ b && b ≤ 57

def splitEncodedDBName (encoded : Bytes) : Bytes × Bytes :=
  let base := encoded.takeWhile fun b => b ≠ 64
  let raw := encoded.drop (base.length + 1)
  if base = [] ∨ base.length = encoded.length then (encoded, [])
  else
    let candidate := (pathUnescape raw).getD raw
    if rootishAllDigits candidate then (encoded, []) else (base, candidate)

example : splitEncodedDBName (ascii "mydb@feature%2Ffoo".toList) =
    (ascii "mydb".toList, ascii "feature/foo".toList) := by decide +kernel

end DumboDB.Backends
