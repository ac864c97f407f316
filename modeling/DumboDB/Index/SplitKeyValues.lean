import DumboDB.Index.NumberOrder

/-!
Splitting an index key into the encodings of its values. The splitter tries every length that a value
may have and accepts a key it can read in one way only; a value that does not mark its end is no
candidate before the last position.
-/

namespace DumboDB.Index
open Foundation ByteOrder Binary64 DumboDB.Types List

/-- The offset past the terminator of the escaped string that begins at the offset `i`. -/
def escapedEnd : Bytes → Nat → Option Nat
  | [], _ => none
  | 0x00 :: 0xFF :: rest, i => escapedEnd rest (i + 2)
  | 0x00 :: _, i => some (i + 1)
  | _ :: rest, i => escapedEnd rest (i + 1)

def fixedLengths (b : Bytes) (l : Nat) : List Nat := if b.length < l then [] else [l]

def numberLengths (b : Bytes) (l : Nat) : List Nat :=
  if l + 8 ≤ b.length then [l, l + 8] else if l ≤ b.length then [l] else []

def valueEncodingLengths : Bytes → List Nat
  | [] => []
  | c :: rest =>
    let b := c :: rest
    if c ∈ [ctypeUndefined, ctypeMinKey, ctypeNull, ctypeNaN, ctypeNegInf, ctypeZero, ctypePosInf,
      ctypeObject, ctypeArray,
      ctypeBoolFalse, ctypeBoolTrue, ctypeMaxKey] then [1]
    else if ctypeNegInf + 1 ≤ c ∧ c ≤ ctypeNegMedium then numberLengths b (1 + (ctypeNegMedium - c).toNat + 1)
    else if ctypePosMedium ≤ c ∧ c ≤ ctypePosMedium + 7 then numberLengths b (1 + (c - ctypePosMedium).toNat + 1)
    else if c = ctypeString then (escapedEnd rest 1).toList
    else if c = ctypeRegex then ((escapedEnd rest 1).bind fun l => escapedEnd (b.drop l) l).toList
    else if c = ctypeOID then fixedLengths b 13
    else if c = ctypeDate ∨ c = ctypeTimestamp then fixedLengths b 9
    else []

def valueEncodingFits (b : Bytes) : Bool :=
  if b.head? = some ctypeBinData then 2 ≤ b.length else (valueEncodingLengths b).contains b.length

structure Splits where
  found : List Bytes
  solutions : Nat

def Splits.record (s : Splits) (split : List Bytes) : Splits :=
  if 1 < s.solutions then s else ⟨split, s.solutions + 1⟩

/-- The search with a number of values after the next one. -/
def split : Nat → (rest : Bytes) → (acc : List Bytes) → Splits → Splits
  | 0, rest, acc, s => if valueEncodingFits rest then s.record (acc ++ [rest]) else s
  | n + 1, rest, acc, s =>
    if 1 < s.solutions then s
    else (valueEncodingLengths rest).foldl (fun s l => split n (rest.drop l) (acc ++ [rest.take l]) s) s

def SplitKeyValues (key : Bytes) (n : Nat) : List Bytes × Bool :=
  let s := if 0 < n then split (n - 1) key [] ⟨[], 0⟩ else ⟨[], 0⟩
  (s.found, s.solutions = 1)

/-- What the search goes through when it does not end early. -/
def readings : Nat → Bytes → List (List Bytes)
  | 0, rest => if valueEncodingFits rest then [[rest]] else []
  | n + 1, rest => (valueEncodingLengths rest).flatMap fun l => (readings n (rest.drop l)).map (rest.take l :: ·)

theorem foldl_record_full {s : Splits} (full : 1 < s.solutions) {α : Type} (f : α → List Bytes) (rs : List α) :
    rs.foldl (fun s r => s.record (f r)) s = s := by
  induction rs with
  | nil => rfl
  | cons r rs ih => rw [foldl_cons, Splits.record, if_pos full, ih]

theorem split_eq (n : Nat) (rest : Bytes) (acc : List Bytes) (s : Splits) :
    split n rest acc s = (readings n rest).foldl (fun s reading => s.record (acc ++ reading)) s := by
  induction n generalizing rest acc s with
  | zero =>
    rw [split, readings]
    split_ifs <;> rfl
  | succ n ih =>
    rw [split, readings]
    split_ifs with full
    · exact (foldl_record_full full _ _).symm
    · simp only [ih, foldl_flatMap, foldl_map, append_assoc, singleton_append]

/-- An accepted key has one reading, the one returned. -/
theorem readings_of_accepted {key : Bytes} {n : Nat} (accepted : (SplitKeyValues key (n + 1)).2 = true) :
    readings n key = [(SplitKeyValues key (n + 1)).1] := by
  simp only [SplitKeyValues, Nat.zero_lt_succ, if_true, Nat.add_sub_cancel, split_eq, decide_eq_true_eq] at accepted ⊢
  generalize readings n key = all at accepted
  match all, accepted with
  | [_], _ => rfl
  | _ :: _ :: _, accepted =>
    rw [foldl_cons, foldl_cons, foldl_record_full (Nat.lt_succ_self 1)] at accepted
    exact absurd accepted (Nat.succ_ne_self 1)

theorem accepted_of_one {key : Bytes} {n : Nat} {parts : List Bytes} (one : readings n key = [parts]) :
    SplitKeyValues key (n + 1) = (parts, true) := by
  simp only [SplitKeyValues, Nat.zero_lt_succ, if_true, Nat.add_sub_cancel, split_eq, one]
  rfl

theorem escapedEnd_terminated (s : Bytes) {rest : Bytes} (i : Nat) (next : rest.head? ≠ some 0xFF) :
    escapedEnd (terminated s ++ rest) i = some (i + (terminated s).length) := by
  induction s generalizing i with
  | nil =>
    change escapedEnd (0 :: rest) i = some (i + 1)
    cases rest with
    | nil => rfl
    | cons c rest =>
      rw [escapedEnd]
      simpa using next
  | cons b s ih =>
    rw [terminated_cons]
    by_cases zero : b = 0
    · subst zero
      change escapedEnd (terminated s ++ rest) (i + 2) = some (i + ((terminated s).length + 2))
      rw [ih, Nat.add_right_comm, Nat.add_assoc]
    · rw [if_neg zero, singleton_append, cons_append, escapedEnd, ih, length_cons, Nat.add_right_comm, Nat.add_assoc]
      all_goals simp [zero]

/-- The splitter tries the length of the encoding in front of the rest. -/
def Tried (a rest : Bytes) : Prop := a.length ∈ valueEncodingLengths (a ++ rest)

/-- The encoding of an integer tells its length, up to a fraction. -/
def IntegerSized (a : Bytes) : Prop := ∀ rest, valueEncodingLengths (a ++ rest) = numberLengths (a ++ rest) a.length

theorem integerSized_posInt (n : UInt64) : IntegerSized (encodePosInt n) := by
  intro rest
  rw [encodePosInt, length_cons, length_beBytes, minBytesForUint]
  split_ifs <;> rfl

theorem integerSized_negInt (n : Int64) : IntegerSized (encodeNegInt n) := by
  intro rest
  rw [encodeNegInt, length_cons, length_map, length_beBytes, minBytesForUint]
  split_ifs <;> rfl

variable {a rest : Bytes}

theorem IntegerSized.tried (sized : IntegerSized a) : Tried a rest := by
  rw [Tried, sized, numberLengths]
  split_ifs with _ short
  · exact mem_cons_self
  · exact mem_cons_self
  · simp at short

theorem IntegerSized.tried_fraction (sized : IntegerSized a) (frac : Float64) :
    Tried (appendFraction a frac) rest := by
  rw [Tried, appendFraction, append_assoc, sized, numberLengths, if_pos] <;> simp

theorem tried_int64 (n : Int64) : Tried (encodeInt64 n) rest := by
  unfold encodeInt64
  split_ifs
  · exact mem_cons_self
  · exact (integerSized_posInt _).tried
  · exact (integerSized_negInt n).tried

theorem tried_float64 [Platform] (f : Float64) : Tried (encodeFloat64 f) rest := by
  unfold encodeFloat64
  split_ifs
  · exact mem_cons_self
  · exact mem_cons_self
  · exact mem_cons_self
  · exact mem_cons_self
  · exact tried_int64 _
  · exact (integerSized_posInt _).tried_fraction _
  · exact (integerSized_negInt _).tried_fraction _

theorem tried_fixed {c : UInt8} {l : Nat} (width : (c :: a).length = l)
    (fixed : ∀ b, valueEncodingLengths (c :: b) = fixedLengths (c :: b) l) : Tried (c :: a) rest := by
  rw [Tried, cons_append, fixed, fixedLengths, if_neg (by simp [← width])]
  exact mem_singleton.mpr width

theorem tried_regex {r : Regex} (options : r.options.head? ≠ some 0xFF) (next : rest.head? ≠ some 0xFF) :
    Tried (ctypeRegex :: (terminated r.pattern ++ terminated r.options)) rest := by
  have bounded : (terminated r.options ++ rest).head? ≠ some 0xFF := by
    cases opts : r.options with
    | nil => exact fun same => absurd (Option.some.inj same) (by decide)
    | cons b s =>
      rw [opts] at options
      rw [terminated_cons]
      split_ifs with zero
      · exact fun same => absurd (Option.some.inj same) (by decide)
      · exact options
  change _ ∈ ((escapedEnd (terminated r.pattern ++ terminated r.options ++ rest) 1).bind fun l =>
    escapedEnd ((ctypeRegex :: (terminated r.pattern ++ terminated r.options ++ rest)).drop l) l).toList
  rw [append_assoc, escapedEnd_terminated _ 1 bounded, Option.bind_some, Nat.add_comm 1, drop_succ_cons, drop_left,
    escapedEnd_terminated _ _ next, Option.mem_toList, length_cons, length_append, Nat.add_right_comm]

/-- The encoding shows where it ends. That of binary data does not, and options that begin with
`0xFF` turn the end of the pattern before them into an escaped zero. -/
def marksEnd : Value → Bool
  | .binary _ => false
  | .regex r => r.options.head? ≠ some 0xFF
  | _ => true

theorem tried_value [Platform] {v : Value} (marked : marksEnd v = true) (next : rest.head? ≠ some 0xFF) :
    Tried (EncodeValue v) rest := by
  cases v with
  | int32 n => exact tried_int64 _
  | int64 n => exact tried_int64 n
  | double f => exact tried_float64 f
  | bool b => cases b <;> exact mem_cons_self
  | string s =>
    change _ ∈ (escapedEnd (terminated s ++ rest) 1).toList
    rw [escapedEnd_terminated s 1 next, Nat.add_comm]
    exact mem_cons_self
  | objectID id => exact tried_fixed (congrArg Nat.succ id.width) fun _ => rfl
  | date millis => exact tried_fixed (congrArg Nat.succ (length_beBytes 8 _)) fun _ => rfl
  | timestamp t => exact tried_fixed (congrArg Nat.succ (length_beBytes 8 _)) fun _ => rfl
  | regex r => exact tried_regex (of_decide_eq_true marked) next
  | binary b => cases marked
  | _ => exact mem_cons_self

/-- Binary data stands last, and no options begin with `0xFF`. -/
def EndsMarked : List Value → Prop
  | [] => True
  | v :: vs => (marksEnd v = true ∨ vs = [] ∧ ∃ b, v = .binary b) ∧ EndsMarked vs

theorem fits_of_marked [Platform] {v : Value} (marked : EndsMarked [v]) :
    valueEncodingFits (EncodeValue v) = true := by
  rcases marked.1 with marks | ⟨-, b, rfl⟩
  · have tried : Tried (EncodeValue v) [] := tried_value marks nofun
    rw [Tried, append_nil] at tried
    unfold valueEncodingFits
    split
    next data =>
      obtain ⟨t, starts⟩ := head?_eq_some_iff.mp data
      rw [starts] at tried
      exact absurd tried not_mem_nil
    next => exact contains_iff_mem.mpr tried
  · rfl

theorem encodings_mem_readings [Platform] {v : Value} {vs : List Value} (marked : EndsMarked (v :: vs)) :
    (v :: vs).map EncodeValue ∈ readings vs.length ((v :: vs).flatMap EncodeValue) := by
  induction vs generalizing v with
  | nil => simp [readings, fits_of_marked marked]
  | cons w vs ih =>
    have later := ih marked.2
    -- no reading begins with `0xFF`, so that a terminator before it is one
    have next : ((w :: vs).flatMap EncodeValue).head? ≠ some 0xFF := by
      intro max
      obtain ⟨t, starts⟩ := head?_eq_some_iff.mp max
      rw [starts] at later
      cases vs <;> cases later
    have tried := tried_value (marked.1.resolve_right fun last => cons_ne_nil w vs last.1) next
    rw [flatMap_cons]
    refine mem_flatMap.mpr ⟨_, tried, ?_⟩
    rw [drop_left, take_left]
    exact mem_map_of_mem later

/-- The encoding has one length, whatever follows: no number, and nothing that hides its end. -/
def oneLength : Value → Bool
  | .int32 _ | .int64 _ | .double _ => false
  | v => marksEnd v

/-- Binary data stands before the last position, behind values of one length only. -/
def Blocked : List Value → Prop
  | .binary _ :: _ :: _ => True
  | v :: vs => oneLength v = true ∧ Blocked vs
  | [] => False

theorem lengths_of_oneLength [Platform] {v : Value} (one : oneLength v = true) (next : rest.head? ≠ some 0xFF) :
    valueEncodingLengths (EncodeValue v ++ rest) = [(EncodeValue v).length] := by
  have option_few (o : Option Nat) : o.toList.length ≤ 1 := by cases o <;> simp
  have fixed_few (b : Bytes) (l : Nat) : (fixedLengths b l).length ≤ 1 := by
    unfold fixedLengths
    split <;> simp
  have few : (valueEncodingLengths (EncodeValue v ++ rest)).length ≤ 1 := by
    cases v with
    | int32 | int64 | double | binary => cases one
    | bool b => cases b <;> exact le_rfl
    | string => exact option_few _
    | regex => exact option_few _
    | objectID => exact fixed_few _ 13
    | date millis => exact fixed_few (ctypeDate :: (beBytes 8 millis.toUInt64.toNat ++ rest)) 9
    | timestamp t => exact fixed_few (ctypeTimestamp :: (beBytes 8 t.toNat ++ rest)) 9
    | _ => exact le_rfl
  have marked : marksEnd v = true := by
    unfold oneLength at one
    split at one
    · cases one
    · cases one
    · cases one
    · exact one
  have tried := tried_value marked next
  unfold Tried at tried
  match valueEncodingLengths (EncodeValue v ++ rest), few, tried with
  | [_], _, tried => rw [mem_singleton.mp tried]

theorem blocked_head [Platform] {v : Value} {vs : List Value} (blocked : Blocked (v :: vs)) :
    ((v :: vs).flatMap EncodeValue).head? ≠ some 0xFF := by
  cases v with
  | int32 | int64 | double => cases blocked.1
  | bool b => cases b <;> exact fun same => absurd (Option.some.inj same) (by decide)
  | _ => exact fun same => absurd (Option.some.inj same) (by decide)

theorem readings_of_blocked [Platform] {v : Value} {vs : List Value} (blocked : Blocked (v :: vs)) :
    readings vs.length ((v :: vs).flatMap EncodeValue) = [] := by
  induction vs generalizing v with
  | nil =>
    cases v with
    | binary => cases blocked.1
    | _ => exact blocked.2.elim
  | cons w vs ih =>
    by_cases data : ∃ b, v = .binary b
    · obtain ⟨b, rfl⟩ := data
      rfl
    · have split : oneLength v = true ∧ Blocked (w :: vs) := by
        cases v with
        | binary b => exact absurd ⟨b, rfl⟩ data
        | _ => exact blocked
      rw [length_cons, readings, flatMap_cons, lengths_of_oneLength split.1 (blocked_head split.2), flatMap_singleton,
        drop_left, ih split.2, map_nil]

attribute [local instance] amd64

end DumboDB.Index
