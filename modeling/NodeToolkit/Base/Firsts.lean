import Mathlib.Data.List.Nodup

/-!
# First occurrences

The elements of a list whose key does not occur earlier. They are a sublist with pairwise distinct keys
that has every key of the list, and taking them again changes nothing.

* `firsts_id_iff`: the first occurrences of keys are those of the elements if and only if the keys tell the
  elements apart.
-/

namespace NodeToolkit

variable {α κ : Type*} [DecidableEq κ]

/-- The elements whose key occurs neither earlier in the list nor among the elements of `earlier`. -/
def firsts (key : α → κ) (earlier : List α) : List α → List α
  | [] => []
  | x :: xs =>
    if ∃ y ∈ earlier, key y = key x then firsts key (earlier ++ [x]) xs else x :: firsts key (earlier ++ [x]) xs

variable {key : α → κ} {earlier xs : List α}

theorem firsts_sublist : (firsts key earlier xs).Sublist xs := by
  induction xs generalizing earlier with
  | nil => exact List.Sublist.refl _
  | cons x xs ih =>
    rw [firsts]
    split
    · exact ih.cons x
    · exact ih.cons_cons x

/-- No key of an earlier element is kept. -/
theorem fresh_of_mem_firsts {x y : α} (hx : x ∈ firsts key earlier xs) (hy : y ∈ earlier) : key y ≠ key x := by
  induction xs generalizing earlier with
  | nil => cases hx
  | cons z xs ih =>
    have hlater : y ∈ earlier ++ [z] := List.mem_append_left _ hy
    rw [firsts] at hx
    split at hx
    · exact ih hx hlater
    · rename_i hnew
      rcases List.mem_cons.1 hx with rfl | hx
      · exact fun h => hnew ⟨y, hy, h⟩
      · exact ih hx hlater

/-- **No key is kept twice.** -/
theorem nodup_firsts : ((firsts key earlier xs).map key).Nodup := by
  induction xs generalizing earlier with
  | nil => exact List.nodup_nil
  | cons x xs ih =>
    rw [firsts]
    split
    · exact ih
    · rw [List.map_cons, List.nodup_cons]
      refine ⟨fun hmem => ?_, ih⟩
      obtain ⟨y, hy, hkey⟩ := List.mem_map.1 hmem
      exact fresh_of_mem_firsts hy (List.mem_append_right _ (List.mem_singleton_self x)) hkey.symm

theorem exists_firsts {x : α} (hx : x ∈ xs) :
    (∃ y ∈ earlier, key y = key x) ∨ ∃ y ∈ firsts key earlier xs, key y = key x := by
  induction xs generalizing earlier with
  | nil => cases hx
  | cons z xs ih =>
    rw [firsts]
    by_cases hold : ∃ y ∈ earlier, key y = key z
    · rw [if_pos hold]
      rcases List.mem_cons.1 hx with rfl | hx
      · exact .inl hold
      · rcases @ih (earlier ++ [z]) hx with ⟨y, hy, hkey⟩ | hlater
        · rcases List.mem_append.1 hy with hy | hy
          · exact .inl ⟨y, hy, hkey⟩
          · rw [List.mem_singleton.1 hy] at hkey
            rw [← hkey]
            exact .inl hold
        · exact .inr hlater
    · rw [if_neg hold]
      rcases List.mem_cons.1 hx with rfl | hx
      · exact .inr ⟨x, List.mem_cons_self, rfl⟩
      · rcases @ih (earlier ++ [z]) hx with ⟨y, hy, hkey⟩ | ⟨y, hy, hkey⟩
        · rcases List.mem_append.1 hy with hy | hy
          · exact .inl ⟨y, hy, hkey⟩
          · exact .inr ⟨z, List.mem_cons_self, by rwa [List.mem_singleton.1 hy] at hkey⟩
        · exact .inr ⟨y, List.mem_cons_of_mem _ hy, hkey⟩

/-- **No key is lost.** -/
theorem exists_firsts_nil {x : α} (hx : x ∈ xs) : ∃ y ∈ firsts key [] xs, key y = key x :=
  (exists_firsts hx).resolve_left fun ⟨_, hy, _⟩ => absurd hy List.not_mem_nil

/-- A list with distinct keys is its own first occurrences. -/
theorem firsts_of_nodup (hnodup : (xs.map key).Nodup) (hfresh : ∀ y ∈ earlier, ∀ x ∈ xs, key y ≠ key x) :
    firsts key earlier xs = xs := by
  induction xs generalizing earlier with
  | nil => rfl
  | cons x xs ih =>
    rw [List.map_cons, List.nodup_cons] at hnodup
    have hnew : ¬ ∃ y ∈ earlier, key y = key x := fun ⟨y, hy, hkey⟩ => hfresh y hy x List.mem_cons_self hkey
    rw [firsts, if_neg hnew, ih hnodup.2]
    intro y hy z hz
    rcases List.mem_append.1 hy with hy | hy
    · exact hfresh y hy z (List.mem_cons_of_mem _ hz)
    · rw [List.mem_singleton.1 hy]
      exact fun hkey => hnodup.1 (List.mem_map.2 ⟨z, hz, hkey.symm⟩)

/-- **Once is enough.** -/
theorem firsts_firsts : firsts key [] (firsts key [] xs) = firsts key [] xs :=
  firsts_of_nodup nodup_firsts fun _ hy => absurd hy List.not_mem_nil

theorem head_firsts : (firsts key [] xs).head? = xs.head? := by
  cases xs with
  | nil => rfl
  | cons x xs =>
    rw [firsts, if_neg (by simp)]
    rfl

variable [DecidableEq α]

/-- Keys that tell the elements apart have the same first occurrences as these. -/
theorem firsts_of_inj (hinj : ∀ x ∈ earlier ++ xs, ∀ y ∈ earlier ++ xs, key x = key y → x = y) :
    firsts key earlier xs = firsts id earlier xs := by
  induction xs generalizing earlier with
  | nil => rfl
  | cons x xs ih =>
    have hsame : (∃ y ∈ earlier, key y = key x) ↔ ∃ y ∈ earlier, id y = id x := by
      refine exists_congr fun y => and_congr_right fun hy => ⟨fun hkey => ?_, fun h => congrArg key h⟩
      exact hinj y (List.mem_append_left _ hy) x (List.mem_append_right _ List.mem_cons_self) hkey
    have hrest : firsts key (earlier ++ [x]) xs = firsts id (earlier ++ [x]) xs := by
      apply ih
      rwa [List.append_assoc, List.singleton_append]
    rw [firsts, firsts, hrest]
    simp only [hsame]

/-- **When the first occurrences of keys are those of the elements.** -/
theorem firsts_id_iff : firsts id [] xs = firsts key [] xs ↔ ∀ x ∈ xs, ∀ y ∈ xs, key x = key y → x = y := by
  constructor
  · intro h x hx y hy hkey
    have hmem : ∀ {z}, z ∈ xs → z ∈ firsts key [] xs := by
      intro z hz
      rw [← h]
      obtain ⟨z', hz', rfl⟩ : ∃ z' ∈ firsts id [] xs, id z' = id z := exists_firsts_nil hz
      exact hz'
    exact List.inj_on_of_nodup_map nodup_firsts (hmem hx) (hmem hy) hkey
  · intro h
    refine (firsts_of_inj ?_).symm
    rwa [List.nil_append]

end NodeToolkit
