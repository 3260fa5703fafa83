import Mathlib.Data.List.Basic

/-!
# Relative paths

A relative path goes up some levels and then down along some names. Walking its segments (`push`) keeps
this form, whatever `..` they have.

* `under`: where the path leads from a folder.
* `walk_eq`: a path in this form is its own walk.
* `below_iff`: when it leads below the folder: it may leave it, but has to come back by the same names.
-/

namespace NodeToolkit

/-- A segment that goes down. -/
def IsName (segment : String) : Prop := segment ≠ "" ∧ segment ≠ "." ∧ segment ≠ ".."

structure RelativePath where
  ups : ℕ
  names : List String
  isName : ∀ name ∈ names, IsName name

namespace RelativePath

/-- The path that stays where it is. -/
def here : RelativePath := ⟨0, [], by simp⟩

/-- One segment more. -/
def push (p : RelativePath) (segment : String) : RelativePath :=
  if h : segment = "" ∨ segment = "." then p
  else if h' : segment = ".." then
    if p.names = [] then ⟨p.ups + 1, [], by simp⟩
    else ⟨p.ups, p.names.dropLast, fun name hname => p.isName name ((List.dropLast_sublist _).subset hname)⟩
  else ⟨p.ups, p.names ++ [segment], by
    intro name hname
    rcases List.mem_append.1 hname with hname | hname
    · exact p.isName name hname
    · rw [List.mem_singleton.1 hname]
      exact ⟨fun he => h (.inl he), fun he => h (.inr he), h'⟩⟩

/-- The path along the segments. -/
def walk (segments : List String) : RelativePath := segments.foldl push here

/-- **Where the path leads** from the folder with the names `folder`. -/
def under (folder : List String) (p : RelativePath) : List String :=
  folder.take (folder.length - p.ups) ++ List.replicate (p.ups - folder.length) ".." ++ p.names

variable {p : RelativePath} {segment : String} {folder segments : List String}

@[ext] theorem ext {q : RelativePath} (hups : p.ups = q.ups) (hnames : p.names = q.names) : p = q := by
  cases p
  cases q
  cases hups
  cases hnames
  rfl

theorem push_skip (h : segment = "" ∨ segment = ".") : p.push segment = p := by
  rw [push, dif_pos h]

theorem push_name (h : IsName segment) :
    (p.push segment).ups = p.ups ∧ (p.push segment).names = p.names ++ [segment] := by
  unfold push
  rw [dif_neg (not_or.2 ⟨h.1, h.2.1⟩), dif_neg h.2.2]
  exact ⟨rfl, rfl⟩

theorem push_up_nil (h : p.names = []) : (p.push "..").ups = p.ups + 1 ∧ (p.push "..").names = [] := by
  unfold push
  rw [dif_neg (by decide), dif_pos rfl, if_pos h]
  exact ⟨rfl, rfl⟩

theorem push_up (h : p.names ≠ []) :
    (p.push "..").ups = p.ups ∧ (p.push "..").names = p.names.dropLast := by
  unfold push
  rw [dif_neg (by decide), dif_pos rfl, if_neg h]
  exact ⟨rfl, rfl⟩

/-- The kinds of segments. -/
theorem segment_cases (segment : String) : (segment = "" ∨ segment = ".") ∨ segment = ".." ∨ IsName segment := by
  by_cases hskip : segment = "" ∨ segment = "."
  · exact .inl hskip
  · by_cases hup : segment = ".."
    · exact .inr (.inl hup)
    · rw [not_or] at hskip
      exact .inr (.inr ⟨hskip.1, hskip.2, hup⟩)

/-! ## Walks -/

/-- Without `..`, a path does not go up. -/
theorem ups_walk (h : ".." ∉ segments) : (walk segments).ups = 0 := by
  have key : ∀ q : RelativePath, (segments.foldl push q).ups = q.ups := by
    induction segments with
    | nil => exact fun _ => rfl
    | cons segment segments ih =>
      intro q
      rw [List.mem_cons, not_or] at h
      rw [List.foldl_cons, ih h.2]
      rcases segment_cases segment with hskip | hup | hname
      · rw [push_skip hskip]
      · exact absurd hup.symm h.1
      · exact (push_name hname).1
  exact key here

theorem mem_of_mem_push {name : String} (h : name ∈ (p.push segment).names) : name ∈ p.names ∨ name = segment := by
  rcases segment_cases segment with hskip | rfl | hname
  · rw [push_skip hskip] at h
    exact .inl h
  · by_cases hnil : p.names = []
    · rw [(push_up_nil hnil).2] at h
      cases h
    · rw [(push_up hnil).2] at h
      exact .inl ((List.dropLast_sublist _).subset h)
  · rw [(push_name hname).2, List.mem_append, List.mem_singleton] at h
    exact h

/-- The names are segments of the path. -/
theorem mem_of_mem_walk {name : String} (h : name ∈ (walk segments).names) : name ∈ segments := by
  have key : ∀ (segments : List String) (q : RelativePath), name ∈ (segments.foldl push q).names →
      name ∈ q.names ∨ name ∈ segments := by
    intro segments
    induction segments with
    | nil => exact fun _ hq => .inl hq
    | cons segment segments ih =>
      intro q hq
      rcases ih (q.push segment) hq with hpush | hlater
      · rw [List.mem_cons]
        exact (mem_of_mem_push hpush).imp_right .inl
      · exact .inr (List.mem_cons_of_mem _ hlater)
  exact (key segments here h).resolve_left List.not_mem_nil

theorem foldl_push_names {names : List String} (h : ∀ name ∈ names, IsName name) :
    (names.foldl push p).ups = p.ups ∧ (names.foldl push p).names = p.names ++ names := by
  induction names generalizing p with
  | nil => exact ⟨rfl, (List.append_nil _).symm⟩
  | cons name names ih =>
    obtain ⟨hups, hnames⟩ := push_name (p := p) (h name List.mem_cons_self)
    obtain ⟨hups', hnames'⟩ := @ih (p.push name) fun name' hname' => h name' (List.mem_cons_of_mem _ hname')
    rw [List.foldl_cons, hups', hnames', hups, hnames, List.append_assoc, List.singleton_append]
    exact ⟨rfl, rfl⟩

theorem foldl_push_ups (n : ℕ) (h : p.names = []) :
    ((List.replicate n "..").foldl push p).ups = p.ups + n ∧ ((List.replicate n "..").foldl push p).names = [] := by
  induction n generalizing p with
  | zero => exact ⟨rfl, h⟩
  | succ n ih =>
    obtain ⟨hups, hnames⟩ := push_up_nil h
    obtain ⟨hups', hnames'⟩ := ih hnames
    rw [List.replicate_succ, List.foldl_cons, hups', hups, hnames']
    exact ⟨by omega, rfl⟩

/-- **A path in this form** is its own walk. -/
theorem walk_eq (p : RelativePath) : walk (List.replicate p.ups ".." ++ p.names) = p := by
  obtain ⟨hups, hnames⟩ := @foldl_push_ups here p.ups rfl
  obtain ⟨hups', hnames'⟩ := @foldl_push_names ((List.replicate p.ups "..").foldl push here) p.names p.isName
  have hwalk : walk (List.replicate p.ups ".." ++ p.names) =
      p.names.foldl push ((List.replicate p.ups "..").foldl push here) := List.foldl_append
  apply ext
  · rw [hwalk, hups', hups]
    exact Nat.zero_add _
  · rw [hwalk, hnames', hnames]
    rfl

/-! ## Where a path leads -/

theorem under_nil (p : RelativePath) : under [] p = List.replicate p.ups ".." ++ p.names := by
  simp [under]

/-- A path that does not go up leads from the folder. -/
theorem under_here (folder : List String) : under folder here = folder := by
  simp [under, here]

/-- **When a path leads below the folder**: if it goes up, it comes back through the last names of the
folder, and goes on. -/
theorem below_iff (hfolder : ".." ∉ folder) :
    (∃ rest, rest ≠ [] ∧ ".." ∉ rest ∧ under folder p = folder ++ rest) ↔
      p.ups ≤ folder.length ∧ ∃ rest, rest ≠ [] ∧ p.names = folder.drop (folder.length - p.ups) ++ rest := by
  constructor
  · rintro ⟨rest, hne, hup, heq⟩
    have hno : ".." ∉ under folder p := by
      rw [heq, List.mem_append, not_or]
      exact ⟨hfolder, hup⟩
    have hle : p.ups ≤ folder.length := by
      -- otherwise a `..` would be left
      by_contra hlt
      refine hno ?_
      rw [under]
      refine List.mem_append_left _ (List.mem_append_right _ ?_)
      rw [List.mem_replicate]
      exact ⟨by omega, rfl⟩
    refine ⟨hle, rest, hne, ?_⟩
    rw [under, Nat.sub_eq_zero_of_le hle, List.replicate_zero, List.append_nil] at heq
    have hsplit : folder ++ rest = folder.take (folder.length - p.ups) ++
        (folder.drop (folder.length - p.ups) ++ rest) := by
      rw [← List.append_assoc, List.take_append_drop]
    rw [hsplit] at heq
    exact List.append_cancel_left heq
  · rintro ⟨hle, rest, hne, hnames⟩
    refine ⟨rest, hne, fun hmem => ?_, ?_⟩
    · have hname : ".." ∈ p.names := by
        rw [hnames]
        exact List.mem_append_right _ hmem
      exact (p.isName _ hname).2.2 rfl
    · rw [under, Nat.sub_eq_zero_of_le hle, List.replicate_zero, List.append_nil, hnames, ← List.append_assoc,
        List.take_append_drop]

end RelativePath

end NodeToolkit
