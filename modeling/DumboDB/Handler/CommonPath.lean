import DumboDB.Types.Compare

/-!
Dotted paths and what they reach in a document: the values a filter sees, the branches that end
early, the value a sort takes and the keys an index stores.
-/

namespace DumboDB.Handler
open Foundation ByteOrder DumboDB.Types

def dot : UInt8 := 46

inductive PathError where
  | elementEmpty | elementInvalid
deriving DecidableEq, Repr

/-- `strings.Split(s, ".")`. -/
def splitDots : Bytes → List Bytes
  | [] => [[]]
  | b :: s =>
    if b = dot then [] :: splitDots s
    else
      match splitDots s with
      | [] => [[b]]
      | first :: rest => (b :: first) :: rest

/-- The encodings of the runes `strings.TrimSpace` removes. -/
def spaces : List Bytes :=
  [[0x09], [0x0A], [0x0B], [0x0C], [0x0D], [0x20], [0xC2, 0x85], [0xC2, 0xA0], [0xE1, 0x9A, 0x80],
    [0xE2, 0x80, 0x80], [0xE2, 0x80, 0x81], [0xE2, 0x80, 0x82], [0xE2, 0x80, 0x83], [0xE2, 0x80, 0x84],
    [0xE2, 0x80, 0x85], [0xE2, 0x80, 0x86], [0xE2, 0x80, 0x87], [0xE2, 0x80, 0x88], [0xE2, 0x80, 0x89],
    [0xE2, 0x80, 0x8A], [0xE2, 0x80, 0xA8], [0xE2, 0x80, 0xA9], [0xE2, 0x80, 0xAF], [0xE2, 0x81, 0x9F],
    [0xE3, 0x80, 0x80]]

def hasOuterSpace (e : Bytes) : Bool :=
  spaces.any fun space => space.isPrefixOf e || space.isSuffixOf e

def newPath : List Bytes → Except PathError (List Bytes)
  | [] => .ok []
  | e :: path =>
    if e = [] then .error .elementEmpty
    else if hasOuterSpace e then .error .elementInvalid
    else (newPath path).map (e :: ·)

def NewPathFromString (s : Bytes) : Except PathError (List Bytes) := newPath (splitDots s)

def digits : Bytes → Nat → Option Nat
  | [], acc => some acc
  | b :: s, acc => if 48 ≤ b ∧ b ≤ 57 then digits s (acc * 10 + (b.toNat - 48)) else none

def atoi (s : Bytes) : Option Int :=
  let signed : Bool × Bytes :=
    match s with
    | b :: rest => if b = 45 then (true, rest) else if b = 43 then (false, rest) else (false, s)
    | [] => (false, [])
  match signed.2 with
  | [] => none
  | body =>
    (digits body 0).bind fun n =>
      let value : Int := if signed.1 then -n else n
      if -2 ^ 63 ≤ value ∧ value < 2 ^ 63 then some value else none

def findArrayIndex (elems : List Value) (index : Bytes) : Option Value :=
  (atoi index).bind fun i => if 0 ≤ i then elems[i.toNat]? else none

def lookupArrayDocuments (elems : List Value) (key : Bytes) : List Value :=
  elems.filterMap fun
    | .document d => Document.get d key
    | _ => none

/-- What one path element adds, with `FindArrayIndex` and `FindArrayDocuments` set. -/
def findStep (e : Bytes) : Value → List Value
  | .document d => (Document.get d e).toList
  | .array elems =>
    match findArrayIndex elems e with
    | some v => [v]
    | none => lookupArrayDocuments elems e
  | _ => []

def FindValues (doc : Document) (path : List Bytes) : List Value :=
  path.foldl (fun values e => values.flatMap (findStep e)) [.document doc]

/-- `hasMissingBranch`; a document inside an array takes the next key at once. -/
def hasMissingBranch : List Bytes → Value → Bool
  | [], _ => false
  | key :: keys, v =>
    let enter (d : Document) : Bool :=
      match d.get key with
      | none => true
      | some next => hasMissingBranch keys next
    match v with
    | .document d => enter d
    | .array elems =>
      (match findArrayIndex elems key with
        | some el => hasMissingBranch keys el
        | none => false) ||
      elems.any fun
        | .document d => enter d
        | _ => false
    | _ => true

def HasMissingBranch (doc : Document) (path : List Bytes) : Bool := hasMissingBranch path (.document doc)

def elementsOrSelf : Value → List Value
  | .array elems => elems
  | v => [v]

end DumboDB.Handler
