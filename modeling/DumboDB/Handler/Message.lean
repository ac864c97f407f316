import DumboDB.Types.Value

/-!
A request on the wire: a command document and document sequences. The guards that run before a
handler read the command document, the handlers the document with every sequence set in it.
-/

namespace DumboDB.Handler

open Foundation ByteOrder DumboDB.Types List

def isTrue : Option Value → Bool
  | some (.bool true) => true
  | _ => false

def stringOf : Option Value → Bytes
  | some (.string s) => s
  | _ => []

def field (name : String) : Bytes := ascii name.toList

def command (d : Document) : Bytes := (d.head?.map Prod.fst).getD []

/-- `Document.Set`: a new value under a key that is there, or a new field at the end. -/
def setField (key : Bytes) (v : Value) : Document → Document
  | [] => [(key, v)]
  | entry :: d => if entry.1 = key then (key, v) :: d else entry :: setField key v d

structure Message where
  section0 : Document
  sequences : List (Bytes × List Document)

def opMsgDocument (msg : Message) : Document :=
  msg.sequences.foldl (fun d sequence => setField sequence.1 (.array (sequence.2.map .document)) d) msg.section0

/-- The command, database and collection that the guards see; what is not a string is empty. -/
def wireCommandTarget (msg : Message) : Bytes × Bytes × Bytes :=
  (command msg.section0, stringOf (msg.section0.get (field "$db")),
    stringOf (msg.section0.get (command msg.section0)))

theorem get_setField (key other : Bytes) (v : Value) (d : Document) :
    (setField key v d).get other = if other = key then some v else d.get other := by
  induction d with
  | nil =>
    simp only [setField, get_cons, get_nil]
    by_cases same : other = key
    · simp [same]
    · simp [same, Ne.symm same]
  | cons entry d ih =>
    obtain ⟨k, w⟩ := entry
    unfold setField
    by_cases here : k = key
    · rw [if_pos here, get_cons, get_cons, here]
      by_cases same : other = key
      · simp [same]
      · simp [same, Ne.symm same]
    · rw [if_neg here, get_cons, get_cons, ih]
      by_cases same : other = key
      · simp [same, here]
      · simp [same]

theorem command_setField {key : Bytes} {v : Value} {d : Document} (some_ : d ≠ []) :
    command (setField key v d) = command d := by
  cases d with
  | nil => exact absurd rfl some_
  | cons entry d =>
    unfold setField
    by_cases here : entry.1 = key
    · simp [here, command]
    · simp [here, command]

theorem setField_ne_nil (key : Bytes) (v : Value) (d : Document) : setField key v d ≠ [] := by
  cases d with
  | nil => exact cons_ne_nil _ _
  | cons _ d =>
    unfold setField
    split <;> exact cons_ne_nil _ _

theorem get_string_of_opMsgDocument {msg : Message} {key s : Bytes}
    (read : (opMsgDocument msg).get key = some (.string s)) :
    msg.section0.get key = some (.string s) := by
  obtain ⟨section0, sequences⟩ := msg
  induction sequences generalizing section0 with
  | nil => exact read
  | cons _ sequences ih =>
    have earlier := ih _ read
    rw [get_setField] at earlier
    split at earlier
    · cases earlier
    · exact earlier

theorem command_opMsgDocument {msg : Message} (some_ : msg.section0 ≠ []) :
    command (opMsgDocument msg) = command msg.section0 := by
  obtain ⟨section0, sequences⟩ := msg
  unfold opMsgDocument
  induction sequences generalizing section0 with
  | nil => rfl
  | cons _ sequences ih =>
    rw [foldl_cons, ih _ (setField_ne_nil _ _ _), command_setField some_]

theorem wireCommandTarget_db {msg : Message} {db : Bytes}
    (read : (opMsgDocument msg).get (field "$db") = some (.string db)) :
    (wireCommandTarget msg).2.1 = db := by
  unfold wireCommandTarget
  rw [get_string_of_opMsgDocument read]
  rfl

end DumboDB.Handler
