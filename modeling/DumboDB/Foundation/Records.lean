import Mathlib.Data.List.Nodup

/-!
Collections of records with distinct keys: reading one, inserting, replacing and deleting records.
-/

namespace DumboDB.Foundation
open List

structure Records {K D : Type} (key : D → K) where
  docs : List D
  distinct : (docs.map key).Nodup

namespace Records

variable {K D : Type} {key : D → K}

def empty : Records key := ⟨[], .nil⟩

variable [DecidableEq K]

def find (r : Records key) (k : K) : Option D := r.docs.find? fun d => key d = k

def insert (r : Records key) (d : D) : Option (Records key) :=
  if fresh : key d ∈ r.docs.map key then none
  else some ⟨d :: r.docs, by simpa using ⟨by simpa using fresh, r.distinct⟩⟩

/-- The records that have one of the given keys are replaced. -/
def update (r : Records key) (new : List D) : Records key where
  docs := r.docs.map fun d => (new.find? fun n => key n = key d).getD d
  distinct := by
    have keys : (r.docs.map fun d => (new.find? fun n => key n = key d).getD d).map key = r.docs.map key := by
      rw [List.map_map]
      refine List.map_congr_left fun d _ => ?_
      cases found : new.find? fun n => key n = key d with
      | none => simp [found]
      | some n => simpa [found] using List.find?_some found
    rw [keys]
    exact r.distinct

def delete (r : Records key) (k : K) : Records key where
  docs := r.docs.filter fun d => key d ≠ k
  distinct := r.distinct.sublist (List.filter_sublist.map key)

def deleteAll (r : Records key) (ks : List K) : Records key where
  docs := r.docs.filter fun d => key d ∉ ks
  distinct := r.distinct.sublist (List.filter_sublist.map key)

variable {r : Records key} {d : D}

theorem key_of_find {k : K} (found : r.find k = some d) : key d = k := by
  simpa using find?_some found

theorem mem_of_find {k : K} (found : r.find k = some d) : d ∈ r.docs := mem_of_find?_eq_some found

theorem find_of_mem (member : d ∈ r.docs) : r.find (key d) = some d := by
  obtain ⟨docs, distinct⟩ := r
  unfold find
  induction docs with
  | nil => cases member
  | cons e docs ih =>
    rw [map_cons, nodup_cons] at distinct
    rcases mem_cons.mp member with rfl | later
    · simp
    · have other : key e ≠ key d := fun same => distinct.1 (same ▸ mem_map_of_mem later)
      rw [find?_cons_of_neg (by simpa using other)]
      exact ih distinct.2 later

section

variable {after : Records key} (inserted : r.insert d = some after)
include inserted

theorem find_insert (k : K) : after.find k = if key d = k then some d else r.find k := by
  unfold insert at inserted
  split at inserted
  next => cases inserted
  next =>
    cases inserted
    by_cases same : key d = k
    · simp [find, same]
    · simp [find, same]

theorem length_insert : after.docs.length = r.docs.length + 1 := by
  unfold insert at inserted
  split at inserted
  next => cases inserted
  next =>
    cases inserted
    rfl

theorem find_of_insert : r.find (key d) = none := by
  unfold insert at inserted
  split at inserted
  next => cases inserted
  next fresh =>
    refine find?_eq_none.mpr fun e member => ?_
    intro same
    exact fresh (mem_map.mpr ⟨e, member, by simpa using same⟩)

end

@[simp] theorem update_nil (r : Records key) : r.update [] = r := by
  obtain ⟨_, _⟩ := r
  simp [update]

theorem find_update (r : Records key) (new : List D) (k : K) :
    (r.update new).find k = (r.find k).map fun d => (new.find? fun n => key n = k).getD d := by
  unfold find update
  dsimp only
  induction r.docs with
  | nil => rfl
  | cons d _ ih =>
    have keyed : key ((new.find? fun n => key n = key d).getD d) = key d := by
      cases found : new.find? fun n => key n = key d with
      | none => rfl
      | some n => simpa using find?_some found
    by_cases same : key d = k
    · subst same
      simp [keyed]
    · simpa [keyed, same] using ih

theorem find_update_single {k : K} {n : D} (found : r.find k = some d) (kept : key n = key d) (j : K) :
    (r.update [n]).find j = if j = k then some n else r.find j := by
  have keyed := kept.trans (key_of_find found)
  rw [find_update]
  by_cases same : j = k
  · subst same
    simp [found, keyed]
  · have other : key n ≠ j := fun equal => same (equal.symm.trans keyed)
    cases r.find j <;> simp [same, other]

theorem find_update_filterMap (r : Records key) {change : D → Option D}
    (same : ∀ d n, change d = some n → key n = key d)
    (k : K) : (r.update (r.docs.filterMap change)).find k = (r.find k).map fun d => (change d).getD d := by
  rw [find_update]
  cases here : r.find k with
  | none => rfl
  | some d =>
    have only : ∀ e ∈ r.docs, key e = k → e = d := by
      rintro e member rfl
      exact Option.some.inj ((find_of_mem member).symm.trans here)
    simp only [Option.map_some, Option.some.injEq]
    cases found : (r.docs.filterMap change).find? fun n => key n = k with
    | none =>
      cases changed : change d with
      | none => rfl
      | some n =>
        have listed := mem_filterMap.mpr ⟨d, mem_of_find here, changed⟩
        have absent := find?_eq_none.mp found n listed
        exact absurd ((same d n changed).trans (key_of_find here)) (by simpa using absent)
    | some n =>
      obtain ⟨e, member, changed⟩ := mem_filterMap.mp (mem_of_find?_eq_some found)
      have keyed : key n = k := by simpa using find?_some found
      obtain rfl := only e member ((same e n changed).symm.trans keyed)
      rw [changed]

theorem find_delete (r : Records key) (j k : K) : (r.delete j).find k = if j = k then none else r.find k := by
  unfold find delete
  dsimp only
  induction r.docs with
  | nil => simp
  | cons d _ ih =>
    by_cases gone : key d = j
    · simp only [gone, ne_eq, not_true_eq_false, decide_false, Bool.false_eq_true, not_false_eq_true,
        filter_cons_of_neg]
      rw [ih]
      by_cases same : j = k
      · simp [same]
      · simp [gone, same]
    · simp only [ne_eq, gone, not_false_eq_true, decide_true, filter_cons_of_pos]
      by_cases here : key d = k
      · have other : j ≠ k := fun same => gone (here.trans same.symm)
        simp [here, other]
      · simpa [here] using ih

theorem find_deleteAll (r : Records key) (ks : List K) (k : K) :
    (r.deleteAll ks).find k = if k ∈ ks then none else r.find k := by
  unfold find deleteAll
  dsimp only
  induction r.docs with
  | nil => simp
  | cons d _ ih =>
    by_cases gone : key d ∈ ks
    · rw [filter_cons_of_neg (by simpa using gone), ih]
      by_cases here : key d = k
      · simp [← here, gone]
      · simp [here]
    · rw [filter_cons_of_pos (by simpa using gone)]
      by_cases here : key d = k
      · simp [here, here ▸ gone]
      · simpa [here] using ih

end Records

end DumboDB.Foundation
