import Mathlib.Data.List.Infix
import Mathlib.Data.Nat.Log
import Mathlib.Order.Compare
import Mathlib.Tactic.Ring
import Mathlib.Tactic.Linarith

/-!
Byte strings under lexicographic order: divergence inside both strings, big-endian words,
and the escape-and-terminate framing of a string body.
-/

namespace DumboDB.Foundation.ByteOrder

abbrev Bytes := List UInt8

instance lawfulBytes : LawfulBEq Bytes := inferInstance

/-- The strings differ at a position both have, the first there being the smaller. Unlike
`compare = .lt` this survives any continuation of either string. -/
inductive Before : Bytes → Bytes → Prop
  | head {x y : UInt8} {s t : Bytes} (smaller : x < y) : Before (x :: s) (y :: t)
  | tail {x : UInt8} {s t : Bytes} (later : Before s t) : Before (x :: s) (x :: t)

variable {a b : Bytes}

theorem Before.append (before : Before a b) (s t : Bytes) : Before (a ++ s) (b ++ t) := by
  induction before with
  | head smaller => exact .head smaller
  | tail _ ih => exact .tail ih

theorem Before.prepend (p : Bytes) (before : Before a b) : Before (p ++ a) (p ++ b) := by
  induction p with
  | nil => exact before
  | cons x p ih => exact .tail ih

theorem Before.compare_lt (before : Before a b) : compare a b = .lt := by
  induction before with
  | head smaller => simp [List.compare_cons_cons, Std.compare_eq_lt.mpr smaller]
  | tail _ ih => simp [List.compare_cons_cons, ih]

theorem compare_append_left (p a b : Bytes) : compare (p ++ a) (p ++ b) = compare a b := by
  induction p with
  | nil => rfl
  | cons x p ih => simp [List.compare_cons_cons, ih]

theorem compare_lt_cases (smaller : compare a b = .lt) : Before a b ∨ ∃ x t, b = a ++ x :: t := by
  induction a generalizing b with
  | nil =>
    cases b with
    | nil => simp at smaller
    | cons x t => exact .inr ⟨x, t, rfl⟩
  | cons x a ih =>
    cases b with
    | nil => simp at smaller
    | cons y b =>
      rw [List.compare_cons_cons] at smaller
      cases order : compare x y with
      | lt => exact .inl (.head (Std.compare_eq_lt.mp order))
      | gt => simp [order] at smaller
      | eq =>
        obtain rfl := Std.compare_eq_iff_eq.mp order
        rw [order] at smaller
        rcases ih smaller with before | ⟨z, t, rfl⟩
        · exact .inl (.tail before)
        · exact .inr ⟨z, t, rfl⟩

theorem before_of_compare_lt (width : a.length = b.length) (smaller : compare a b = .lt) : Before a b := by
  rcases compare_lt_cases smaller with before | ⟨x, t, rfl⟩
  · exact before
  · simp at width

theorem compare_gt_of_before (before : Before b a) : compare a b = .gt := by
  rw [Std.OrientedCmp.gt_iff_lt]
  exact before.compare_lt

theorem before_of_head {x y : UInt8} (less : x.toNat < y.toNat) (s t : Bytes) : Before (x :: s) (y :: t) :=
  .head (UInt8.lt_iff_toNat_lt.mpr less)

theorem Before.complement (before : Before a b) : Before (b.map (~~~ ·)) (a.map (~~~ ·)) := by
  induction before with
  | @head x y s t smaller =>
    refine .head ?_
    rw [UInt8.lt_iff_toNat_lt] at smaller ⊢
    have := y.toNat_lt
    simp only [UInt8.toNat_not, UInt8.size]
    omega
  | tail _ ih => exact .tail ih

/-! Big-endian words of a fixed number of bytes. -/

/-- The low `n` bytes of a number, most significant first. -/
def beBytes : Nat → Nat → Bytes
  | 0, _ => []
  | n + 1, a => beBytes n (a / 256) ++ [UInt8.ofNat a]

@[simp] theorem length_beBytes (n a : Nat) : (beBytes n a).length = n := by
  induction n generalizing a with
  | zero => rfl
  | succ n ih => simp [beBytes, ih]

private theorem toNat_low_byte (a : Nat) : (UInt8.ofNat a).toNat = a % 256 := by
  simp

theorem beBytes_before (n : Nat) {a b : Nat} (smaller : a < b) (bound : b < 256 ^ n) :
    Before (beBytes n a) (beBytes n b) := by
  induction n generalizing a b with
  | zero => simp at bound; omega
  | succ n ih =>
    have high : b / 256 < 256 ^ n := by
      rw [Nat.div_lt_iff_lt_mul (by decide), ← Nat.pow_succ]
      exact bound
    rcases Nat.lt_or_ge (a / 256) (b / 256) with less | ge
    · exact (ih less high).append _ _
    · have same : a / 256 = b / 256 := by omega
      simp only [beBytes, same]
      apply Before.prepend
      apply Before.head
      rw [UInt8.lt_iff_toNat_lt, toNat_low_byte, toNat_low_byte]
      omega

/-! A string body with every zero byte followed by `0xFF`, and a zero byte as its end. -/

def escaped : Bytes → Bytes
  | [] => []
  | b :: s => if b = 0 then 0 :: 0xFF :: escaped s else b :: escaped s

def terminated (s : Bytes) : Bytes := escaped s ++ [0]

theorem terminated_cons (b : UInt8) (s : Bytes) :
    terminated (b :: s) = (if b = 0 then [0, 0xFF] else [b]) ++ terminated s := by
  by_cases zero : b = 0 <;> simp [terminated, escaped, zero]

theorem terminated_before {s t : Bytes} (smaller : compare s t = .lt) (next : UInt8)
    (bound : next < 0xFF) (u v : Bytes) : Before (terminated s ++ next :: u) (terminated t ++ v) := by
  induction s generalizing t with
  | nil =>
    cases t with
    | nil => simp at smaller
    | cons c t =>
      rw [terminated_cons]
      by_cases zero : c = 0
      · subst zero
        exact .tail (.head bound)
      · rw [if_neg zero]
        refine .head ?_
        have positive : c.toNat ≠ 0 := fun h => zero (UInt8.toNat_inj.mp h)
        change 0 < c.toNat
        omega
  | cons b s ih =>
    cases t with
    | nil => simp at smaller
    | cons c t =>
      rw [List.compare_cons_cons] at smaller
      rw [terminated_cons, terminated_cons]
      cases order : compare b c with
      | gt => simp [order] at smaller
      | eq =>
        obtain rfl := Std.compare_eq_iff_eq.mp order
        rw [order] at smaller
        rw [List.append_assoc, List.append_assoc]
        exact (ih smaller).prepend _
      | lt =>
        have less : b < c := Std.compare_eq_lt.mp order
        have positive : c ≠ 0 := by
          rintro rfl
          exact absurd less (Nat.not_lt_zero _)
        rw [if_neg positive]
        by_cases zero : b = 0
        · subst zero
          exact .head less
        · rw [if_neg zero]
          exact .head less

end DumboDB.Foundation.ByteOrder
