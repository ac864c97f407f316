import DumboDB.Dolt.Bson
import DumboDB.Foundation.Fallible
import DumboDB.Handler.CommonPath
import DumboDB.Handler.Message

/-!
`GetByPath`, `SetByPath` and `RemoveByPath`: one value under a dotted path, read, written with
what is missing on the way to it, or removed.
-/

namespace DumboDB.Handler
open Foundation ByteOrder DumboDB.Types Dolt Fallible List Option

/-- The codes of `PathError` that access by path can raise. -/
inductive AccessError where
  | keyNotFound | indexInvalid | indexOutOfBound | cannotAccess | cannotCreateField
deriving DecidableEq, Repr

def getByPath : List Bytes → Value → Except AccessError Value
  | [], v => .ok v
  | p :: path, .document d =>
    match Document.get d p with
    | some next => getByPath path next
    | none => .error .keyNotFound
  | p :: path, .array elems =>
    match atoi p with
    | none => .error .indexInvalid
    | some index =>
      if index < 0 then .error .indexInvalid
      else
        match elems[index.toNat]? with
        | some next => getByPath path next
        | none => .error .indexOutOfBound
  | _ :: _, _ => .error .cannotAccess

def GetByPath (d : Document) (path : List Bytes) : Except AccessError Value := getByPath path (.document d)

def HasByPath (d : Document) (path : List Bytes) : Bool := (GetByPath d path).toBool

/-- `Array.Set`, nulls filling the gap up to the index first. -/
def setElem (elems : List Value) (index : Nat) (v : Value) : List Value :=
  if index < elems.length then elems.set index v
  else elems ++ List.replicate (index - elems.length) .null ++ [v]

/-- A missing element on the way becomes an empty document, as `insertByPath` leaves it. -/
def setByPath (value : Value) : List Bytes → Value → Except AccessError Value
  | [], _ => .ok value
  | p :: path, .document d => do
    let inner ← setByPath value path ((Document.get d p).getD (.document []))
    return .document (setField p inner d)
  | p :: path, .array elems =>
    match atoi p with
    | none => .error .cannotCreateField
    | some index =>
      if index < 0 then .error .indexOutOfBound
      else do
        let inner ← setByPath value path (elems[index.toNat]?.getD (.document []))
        return .array (setElem elems index.toNat inner)
  | _ :: _, _ => .error .cannotCreateField

def SetByPath (d : Document) (path : List Bytes) (value : Value) : Except AccessError Document :=
  match path with
  | [] => .ok d
  | p :: path => do
    let inner ← setByPath value path ((d.get p).getD (.document []))
    return setField p inner d

/-- `Document.Remove`. -/
def removeField (key : Bytes) : Document → Document
  | [] => []
  | entry :: d => if entry.1 = key then d else entry :: removeField key d

/-- Called on a path that was read first, so no index in it is negative. -/
def removeByPath : List Bytes → Value → Value
  | [], v => v
  | [key], .document d => .document (removeField key d)
  | key :: path, .document d =>
    match Document.get d key with
    | some inner => .document (setField key (removeByPath path inner) d)
    | none => .document d
  | key :: path, .array elems =>
    match atoi key with
    | none => .array elems
    | some index =>
      match elems[index.toNat]?, path with
      | none, _ => .array elems
      | some _, [] => .array (elems.eraseIdx index.toNat)
      | some inner, path => .array (elems.set index.toNat (removeByPath path inner))
  | _ :: _, v => v

def RemoveByPath (d : Document) (path : List Bytes) : Document :=
  match removeByPath path (.document d) with
  | .document d => d
  | _ => d

/-! Writing and reading back. -/

variable {d : Document} {v : Value} {path : List Bytes} {w : Value}

theorem setField_get {key : Bytes} (held : d.get key = some v) : setField key v d = d := by
  induction d with
  | nil => simp at held
  | cons entry d ih =>
    obtain ⟨k, w⟩ := entry
    rw [get_cons] at held
    unfold setField
    by_cases here : k = key
    · rw [if_pos here] at held ⊢
      rw [← here, Option.some.inj held]
    · rw [if_neg here] at held ⊢
      rw [ih held]

theorem setElem_get {elems : List Value} {index : Nat} (held : elems[index]? = some v) :
    setElem elems index v = elems := by
  obtain ⟨bound, rfl⟩ := List.getElem?_eq_some_iff.mp held
  rw [setElem, if_pos bound, set_getElem_self]

theorem getElem?_setElem (elems : List Value) (index : Nat) (v : Value) :
    (setElem elems index v)[index]? = some v := by
  unfold setElem
  by_cases bound : index < elems.length
  · simp [bound]
  · have width : (elems ++ List.replicate (index - elems.length) Value.null).length = index := by
      simp only [length_append, length_replicate]
      omega
    rw [if_neg bound, getElem?_append_right (by omega), width]
    simp

theorem getByPath_cons {p : Bytes} (held : getByPath (p :: path) v = .ok w) : ∃ next, getByPath path next = .ok w ∧
    ((∃ d, v = .document d ∧ Document.get d p = some next) ∨
      ∃ elems index, v = .array elems ∧ atoi p = some index ∧ ¬index < 0 ∧ elems[index.toNat]? = some next) := by
  cases v with
  | document d =>
    simp only [getByPath] at held
    cases found : Document.get d p with
    | none => simp [found] at held
    | some next => exact ⟨next, by rwa [found] at held, .inl ⟨d, rfl, found⟩⟩
  | array elems =>
    simp only [getByPath] at held
    cases read : atoi p with
    | none => simp [read] at held
    | some index =>
      simp only [read] at held
      by_cases below : index < 0
      · simp [below] at held
      · simp only [below, if_false] at held
        cases found : elems[index.toNat]? with
        | none => simp [found] at held
        | some next => exact ⟨next, by rwa [found] at held, .inr ⟨elems, index, rfl, rfl, below, found⟩⟩
  | _ => simp [getByPath] at held

theorem setByPath_getByPath (held : getByPath path v = .ok w) : setByPath w path v = .ok v := by
  induction path generalizing v with
  | nil =>
    cases held
    rfl
  | cons p path ih =>
    obtain ⟨next, rest, ⟨d, rfl, found⟩ | ⟨elems, index, rfl, read, below, found⟩⟩ := getByPath_cons held
    · simp only [setByPath, found, getD_some, ih rest]
      simp [setField_get found]
    · simp only [setByPath, read, below, if_false, found, getD_some, ih rest]
      simp [setElem_get found]

theorem getByPath_setByPath {after value : Value}
    (written : setByPath value path v = .ok after) : getByPath path after = .ok value := by
  induction path generalizing v after with
  | nil =>
    cases written
    rfl
  | cons p path ih =>
    cases v with
    | document d =>
      obtain ⟨inner, set, result⟩ := bind_eq_ok.mp written
      cases result
      simp only [getByPath, get_setField, if_true]
      exact ih set
    | array _ =>
      simp only [setByPath] at written
      cases read : atoi p with
      | none => simp [read] at written
      | some index =>
        simp only [read] at written
        by_cases below : index < 0
        · simp [below] at written
        · simp only [below, if_false] at written
          obtain ⟨inner, set, result⟩ := bind_eq_ok.mp written
          cases result
          simp only [getByPath, read, below, if_false, getElem?_setElem]
          exact ih set
    | _ => simp [setByPath] at written

theorem SetByPath_GetByPath (held : GetByPath d path = .ok v) : SetByPath d path v = .ok d := by
  cases path with
  | nil => rfl
  | cons p path =>
    have back := setByPath_getByPath held
    obtain ⟨_, set, result⟩ := bind_eq_ok.mp back
    rw [SetByPath, set]
    exact congrArg Except.ok (Value.document.inj (Except.ok.inj result))

theorem GetByPath_SetByPath {after : Document} {value : Value} (some_ : path ≠ [])
    (written : SetByPath d path value = .ok after) : GetByPath after path = .ok value := by
  cases path with
  | nil => exact absurd rfl some_
  | cons p path =>
    obtain ⟨inner, set, result⟩ := bind_eq_ok.mp written
    cases result
    have whole : setByPath value (p :: path) (.document d) = .ok (.document (setField p inner d)) := by
      rw [setByPath, set]
      rfl
    exact getByPath_setByPath whole

/-! Values that are stored alike hold values stored alike under every path. -/

theorem canonicalValue_document (same : canonicalValue (.document d) = canonicalValue w) :
    ∃ e, w = .document e ∧ canonical d = canonical e := by
  cases w with
  | document e =>
    exact ⟨e, rfl, Value.document.inj same⟩
  | _ => simp [canonicalValue] at same

theorem canonicalValue_array {elems : List Value} (same : canonicalValue (.array elems) = canonicalValue w) :
    ∃ others, w = .array others ∧ elems.map canonicalValue = others.map canonicalValue := by
  cases w with
  | array others =>
    rw [canonicalValue, canonicalValue, canonicalElems_eq_map, canonicalElems_eq_map] at same
    exact ⟨others, rfl, Value.array.inj same⟩
  | _ => simp [canonicalValue] at same

theorem get_of_canonical {e : Document} (same : canonical d = canonical e) {key : Bytes} (held : d.get key = some v) :
    ∃ w, e.get key = some w ∧ canonicalValue v = canonicalValue w := by
  have stored := get_canonical e key
  rw [← same, get_canonical, held] at stored
  cases other : e.get key with
  | none => simp [other] at stored
  | some w =>
    refine ⟨w, rfl, ?_⟩
    simp only [other, map_some, Option.some.injEq, storedValue] at stored
    split at stored
    · rw [stored]
    · exact stored

theorem getByPath_of_canonical {x : Value} (same : canonicalValue v = canonicalValue w)
    (held : getByPath path v = .ok x) : ∃ y, getByPath path w = .ok y ∧ canonicalValue x = canonicalValue y := by
  induction path generalizing v w with
  | nil =>
    cases held
    exact ⟨w, rfl, same⟩
  | cons p path ih =>
    cases v with
    | document d =>
      obtain ⟨e, rfl, alike⟩ := canonicalValue_document same
      simp only [getByPath] at held ⊢
      cases found : Document.get d p with
      | none => simp [found] at held
      | some next =>
        obtain ⟨other, there, next_alike⟩ := get_of_canonical alike found
        rw [found] at held
        rw [there]
        exact ih next_alike held
    | array elems =>
      obtain ⟨others, rfl, alike⟩ := canonicalValue_array same
      simp only [getByPath] at held ⊢
      cases read : atoi p with
      | none => simp [read] at held
      | some index =>
        simp only [read] at held ⊢
        by_cases below : index < 0
        · simp [below] at held
        · simp only [below, if_false] at held ⊢
          have elem := congrArg (fun values => values[index.toNat]?) alike
          simp only [getElem?_map] at elem
          cases found : elems[index.toNat]? with
          | none => simp [found] at held
          | some next =>
            cases there : others[index.toNat]? with
            | none => simp [found, there] at elem
            | some other =>
              simp only [found, there, map_some, Option.some.injEq] at elem
              rw [found] at held
              exact ih elem held
    | _ => simp [getByPath] at held

theorem GetByPath_of_canonical {e : Document} {x : Value} (same : canonical d = canonical e)
    (held : GetByPath d path = .ok x) : ∃ y, GetByPath e path = .ok y ∧ canonicalValue x = canonicalValue y :=
  getByPath_of_canonical (by rw [canonicalValue, canonicalValue]; exact congrArg _ same) held

end DumboDB.Handler
