import NodeToolkit.Spec.Authorize

/-!
# What Authorize lets through

A target `topic/operation/action` is covered by five permissions: `*`, `*/operation/*`,
`topic/*`, `topic/operation/*` and itself. The matcher looks at the first three pieces of a
permission only, so it also grants to permissions that go on after one of the last four.

* `permissionMatches_iff`: the permissions that match are those that cover the target and
  those that go on after a pattern that covers it.
* `authorize_exact_iff`: the wrapper does what the documentation says if and only if no
  argument before the session has a session that is no object, and the principal has a
  covering permission or none that goes on.
-/

namespace NodeToolkit

/-- A permission without wildcards, with the shape of its type. -/
structure Target where
  topic : String
  operation : String
  action : String
  operation_ok : operation = "read" ∨ operation = "write"
  topic_slash : '/' ∉ topic.toList
  topic_star : '*' ∉ topic.toList
  action_slash : '/' ∉ action.toList
  action_star : '*' ∉ action.toList

namespace Target

variable (t : Target)

def text : String := t.topic ++ "/" ++ t.operation ++ "/" ++ t.action

/-- The permissions with a slash that cover a target. -/
def patterns : List String :=
  ["*" ++ "/" ++ t.operation ++ "/" ++ "*", t.topic ++ "/" ++ "*",
    t.topic ++ "/" ++ t.operation ++ "/" ++ "*", t.text]

/-- The permission covers the target. -/
def Covers (permission : String) : Prop := permission = "*" ∨ permission ∈ t.patterns

/-- The permission goes on after a pattern of the target. -/
def Overlong (permission : String) : Prop :=
  ∃ pattern ∈ t.patterns, ∃ rest, permission = pattern ++ "/" ++ rest

instance (permission : String) : Decidable (t.Covers permission) :=
  inferInstanceAs (Decidable (permission = "*" ∨ permission ∈ t.patterns))

end Target

/-! ## Pieces of a permission -/

section Pieces

variable {a b : String}

/-- A slash splits a text in two, wherever it is. -/
theorem split_slash : split (a ++ "/" ++ b) '/' = split a '/' ++ split b '/' := split_append_sep a b '/'

/-- A text is determined by its pieces. -/
theorem split_inj (h : split a '/' = split b '/') : a = b := by
  have hl : a.toList.splitOn '/' = b.toList.splitOn '/' :=
    List.map_injective_iff.2 (fun x y hxy => String.ofList_injective hxy) h
  have ha : ['/'].intercalate (a.toList.splitOn '/') = a.toList := List.intercalate_splitOn '/'
  rw [hl, List.intercalate_splitOn] at ha
  exact String.toList_inj.1 ha.symm

theorem split_ne_nil : split a '/' ≠ [] := by
  unfold split
  exact fun h => List.splitOn_ne_nil '/' a.toList (List.map_eq_nil_iff.1 h)

/-- A text with a slash has a first piece. -/
theorem exists_first_piece (h : '/' ∈ a.toList) :
    ∃ c d : String, '/' ∉ c.toList ∧ a = c ++ "/" ++ d ∧ split a '/' = c :: split d '/' := by
  obtain ⟨c, d, hcd, hc⟩ := List.eq_append_cons_of_mem h
  have ha : a = String.ofList c ++ "/" ++ String.ofList d := by
    apply String.toList_inj.1
    simp [String.toList_append, hcd]
  refine ⟨String.ofList c, String.ofList d, by simpa using hc, ha, ?_⟩
  rw [ha, split_slash, split_self (by simpa using hc)]
  rfl

/-- A text whose pieces are two lists is cut at a slash. -/
theorem exists_cut {l m : List String} (hl : l ≠ []) (hm : m ≠ []) (h : split a '/' = l ++ m) :
    ∃ b c, a = b ++ "/" ++ c ∧ split b '/' = l := by
  induction l generalizing a with
  | nil => exact absurd rfl hl
  | cons x l ih =>
    by_cases ha : '/' ∈ a.toList
    · obtain ⟨c, d, hc, rfl, hs⟩ := exists_first_piece ha
      rw [hs, List.cons_append, List.cons.injEq] at h
      obtain ⟨rfl, h⟩ := h
      cases l with
      | nil => exact ⟨c, d, rfl, split_self hc⟩
      | cons y l =>
        obtain ⟨b, e, rfl, hb⟩ := ih (List.cons_ne_nil y l) h
        exact ⟨c ++ "/" ++ b, e, by simp only [String.append_assoc], by rw [split_slash, split_self hc, hb]; rfl⟩
    · -- no slash: a single piece is not two lists
      rw [split_self ha, List.cons_append, List.cons.injEq] at h
      exact absurd (List.append_eq_nil_iff.1 h.2.symm).2 hm

end Pieces

section Matches

variable {t : Target} {permission : String}

/-- The pieces of the patterns of a target. -/
def Target.pieces (t : Target) : List (List String) :=
  [["*", t.operation, "*"], [t.topic, "*"], [t.topic, t.operation, "*"], [t.topic, t.operation, t.action]]

theorem split_operation : split t.operation '/' = [t.operation] := by
  rcases t.operation_ok with h | h <;> exact split_self (by rw [h]; decide)

theorem split_text : split t.text '/' = [t.topic, t.operation, t.action] := by
  rw [Target.text, split_slash, split_slash, split_self t.topic_slash, split_operation, split_self t.action_slash]
  rfl

theorem split_patterns : t.patterns.map (split · '/') = t.pieces := by
  have hstar : split "*" '/' = ["*"] := split_self (by decide)
  simp only [Target.patterns, Target.pieces, List.map_cons, List.map_nil, split_text]
  simp only [split_slash, hstar, split_self t.topic_slash, split_operation, List.cons_append, List.nil_append]

theorem mem_patterns : permission ∈ t.patterns ↔ split permission '/' ∈ t.pieces := by
  rw [← split_patterns, List.mem_map_of_injective fun _ _ h => split_inj h]

theorem overlong_iff : t.Overlong permission ↔ ∃ l ∈ t.pieces, ∃ m ≠ [], split permission '/' = l ++ m := by
  constructor
  · rintro ⟨pattern, hp, rest, rfl⟩
    exact ⟨_, mem_patterns.1 hp, _, split_ne_nil, split_slash⟩
  · rintro ⟨l, hl, m, hm, h⟩
    have hne : l ≠ [] := by
      rintro rfl
      simp [Target.pieces] at hl
    obtain ⟨b, c, rfl, hb⟩ := exists_cut hne hm h
    exact ⟨b, mem_patterns.2 (hb ▸ hl), c, rfl⟩

/-- Covering permissions and those that go on are those that start with the pieces of a pattern. -/
theorem covers_or_overlong : t.Covers permission ∨ t.Overlong permission ↔
    permission = "*" ∨ ∃ l ∈ t.pieces, l <+: split permission '/' := by
  rw [Target.Covers, mem_patterns, overlong_iff, or_assoc]
  refine or_congr_right ⟨?_, ?_⟩
  · rintro (h | ⟨l, hl, m, -, h⟩)
    · exact ⟨_, h, List.prefix_rfl⟩
    · exact ⟨l, hl, m, h.symm⟩
  · rintro ⟨l, hl, m, h⟩
    rcases eq_or_ne m [] with rfl | hm
    · rw [List.append_nil] at h
      exact Or.inl (h ▸ hl)
    · exact Or.inr ⟨l, hl, m, hm, h.symm⟩

/-- **The matcher** grants to the permissions that cover the target, and to those that go on. -/
theorem permissionMatches_iff :
    permissionMatches t.text permission ↔ t.Covers permission ∨ t.Overlong permission := by
  rw [covers_or_overlong]
  by_cases hstar : permission = "*"
  · simp [permissionMatches, hstar]
  by_cases htext : permission = t.text
  · have hmem : [t.topic, t.operation, t.action] ∈ t.pieces := by simp [Target.pieces]
    have hpre : [t.topic, t.operation, t.action] <+: split permission '/' := by
      simp only [htext, split_text, List.prefix_rfl]
    have hmatches : permissionMatches t.text permission := by simp [permissionMatches, htext]
    exact iff_of_true hmatches (Or.inr ⟨_, hmem, hpre⟩)
  simp only [permissionMatches, if_neg htext, split_text, Target.pieces, hstar, if_false, false_or]
  -- the first three pieces decide, on both sides
  rcases split permission '/' with _ | ⟨a, _ | ⟨b, _ | ⟨c, l⟩⟩⟩
  · simp
  · simp
  · simp only [List.getElem?_cons_zero, List.getElem?_cons_succ, List.getElem?_nil, List.mem_cons, List.not_mem_nil,
      or_false, exists_eq_or_imp, exists_eq_left, List.cons_prefix_cons, List.prefix_nil]
    grind
  · simp only [List.getElem?_cons_zero, List.getElem?_cons_succ, List.mem_cons, List.not_mem_nil,
      or_false, exists_eq_or_imp, exists_eq_left, List.cons_prefix_cons, List.nil_prefix]
    grind

/-- The empty text, which `!!` turns into `false`, matches no target. -/
theorem IsPermissionsMatches_iff {permissions : List String} : IsPermissionsMatches t.text permissions ↔
    ∃ permission ∈ permissions, t.Covers permission ∨ t.Overlong permission := by
  have hempty : permissionMatches t.text "" = false := by
    rw [Bool.eq_false_iff, ne_eq, permissionMatches_iff, covers_or_overlong]
    have hpieces : split "" '/' = [""] := split_self (by decide)
    rw [hpieces]
    simp [Target.pieces]
  have hmatch : (∃ permission ∈ permissions, permissionMatches t.text permission) ↔
      (permissions.find? (permissionMatches t.text)).isSome := by
    rw [List.find?_isSome]
  simp only [← permissionMatches_iff]
  rw [hmatch, IsPermissionsMatches]
  cases hfind : permissions.find? (permissionMatches t.text) with
  | none => simp
  | some permission =>
    have hsome := List.find?_some hfind
    have hne : permission ≠ "" := by
      rintro rfl
      rw [hempty] at hsome
      cases hsome
    simp [hne]

/-- Some permission covers the target. -/
def Target.Granted (t : Target) (permissions : List String) : Prop :=
  ∃ permission ∈ permissions, t.Covers permission

/-- The matcher is right unless the only permissions that match go on. -/
theorem matches_granted_iff {permissions : List String} :
    (IsPermissionsMatches t.text permissions ↔ t.Granted permissions) ↔
      t.Granted permissions ∨ ∀ permission ∈ permissions, ¬ t.Overlong permission := by
  rw [IsPermissionsMatches_iff]
  constructor
  · intro h
    by_cases hg : t.Granted permissions
    · exact Or.inl hg
    · exact Or.inr fun permission hmem hp => hg (h.1 ⟨permission, hmem, Or.inr hp⟩)
  · rintro (hg | hno)
    · obtain ⟨permission, hmem, hp⟩ := hg
      exact ⟨fun _ => ⟨permission, hmem, hp⟩, fun _ => ⟨permission, hmem, Or.inl hp⟩⟩
    · refine ⟨?_, ?_⟩
      · rintro ⟨permission, hmem, hp | hp⟩
        · exact ⟨permission, hmem, hp⟩
        · exact absurd hp (hno permission hmem)
      · rintro ⟨permission, hmem, hp⟩
        exact ⟨permission, hmem, Or.inl hp⟩

end Matches

/-! ## The wrapper -/

section Wrapper

variable {A β : Type} {session : A → Option SessionProperty} {args : List A} {s : Session}

/-- The permissions of the acting principal. -/
def Session.acting (s : Session) : List String :=
  match s.apiKey, s.client with
  | some apiKey, _ => apiKey.permissions
  | none, some client => client.permissions
  | none, none => s.user.permissions

/-- The session with a user that an argument carries. -/
def sessionOf (session : A → Option SessionProperty) (arg : A) : Option Session :=
  match session arg with
  | some (.session s) => some s
  | _ => none

/-- No argument before the first session with a user has a session that is no object. -/
def Unobstructed (session : A → Option SessionProperty) (args : List A) : Prop :=
  ∀ arg ∈ args.takeWhile fun arg => (sessionOf session arg).isNone, session arg ≠ some .notObject

theorem sessionOf_eq_some {arg : A} : sessionOf session arg = some s ↔ session arg = some (.session s) := by
  unfold sessionOf
  rcases session arg with _ | _ | _ | s' <;> simp

theorem unobstructed_cons {arg : A} (h : sessionOf session arg = none) :
    Unobstructed session (arg :: args) ↔ session arg ≠ some .notObject ∧ Unobstructed session args := by
  unfold Unobstructed
  rw [List.takeWhile_cons_of_pos (by rw [h]; rfl), List.forall_mem_cons]

/-- An argument without a session and one without a user are passed over. -/
theorem findSession_cons {arg : A} (h : sessionOf session arg = none) (hobj : session arg ≠ some .notObject) :
    findSession session (arg :: args) = findSession session args := by
  rw [findSession]
  rcases hs : session arg with _ | _ | _ | s
  · rfl
  · exact absurd hs hobj
  · rfl
  · rw [sessionOf_eq_some.2 hs] at h
    cases h

/-- **The session that is found.** -/
theorem findSession_eq (session : A → Option SessionProperty) (args : List A) : (Unobstructed session args ∧
      findSession session args = .ok (args.findSome? (sessionOf session))) ∨
    (¬ Unobstructed session args ∧ findSession session args = .error .typeError) := by
  induction args with
  | nil => exact Or.inl ⟨fun arg harg => by simp at harg, rfl⟩
  | cons arg args ih =>
    cases hs : sessionOf session arg with
    | some s =>
      refine Or.inl ⟨fun a ha => ?_, ?_⟩
      · rw [List.takeWhile_cons_of_neg (by rw [hs]; exact Bool.false_ne_true)] at ha
        cases ha
      · rw [findSession, sessionOf_eq_some.1 hs, List.findSome?_cons, hs]
    | none =>
      by_cases hobj : session arg = some .notObject
      · refine Or.inr ⟨fun h => ((unobstructed_cons hs).1 h).1 hobj, ?_⟩
        rw [findSession, hobj]
      · rw [findSession_cons hs hobj, unobstructed_cons hs, List.findSome?_cons, hs]
        rcases ih with ⟨hun, hfind⟩ | ⟨hun, hfind⟩
        · exact Or.inl ⟨⟨hobj, hun⟩, hfind⟩
        · exact Or.inr ⟨fun h => hun h.2, hfind⟩

/-- The wrapper, once the session is found. -/
theorem authorize_of_session {target : String} {originalMethod : List A → β}
    (h : findSession session args = .ok (some s)) : Authorize target session originalMethod args =
      if IsPermissionsMatches target s.acting then .ran (originalMethod args) else .threw notAuthorized := by
  obtain ⟨user, apiKey, client⟩ := s
  rw [Authorize, h]
  cases apiKey with
  | some apiKey => rfl
  | none =>
    cases client with
    | some client => rfl
    | none => rfl

/-- **What the wrapper is for**: with no session it throws; with one it runs the method if and only
if the acting principal has a permission that covers the target, and otherwise says so. -/
def Exact (t : Target) (session : A → Option SessionProperty) (originalMethod : List A → β) (args : List A) :
    Prop :=
  match args.findSome? (sessionOf session) with
  | none => ∃ e, Authorize t.text session originalMethod args = .threw e
  | some s =>
    (t.Granted s.acting → Authorize t.text session originalMethod args = .ran (originalMethod args)) ∧
      (¬ t.Granted s.acting → Authorize t.text session originalMethod args = .threw notAuthorized)

/-- **When it does that.** -/
theorem authorize_exact_iff (t : Target) (session : A → Option SessionProperty) (originalMethod : List A → β)
    (args : List A) : Exact t session originalMethod args ↔
      ∀ s, args.findSome? (sessionOf session) = some s → Unobstructed session args ∧
        (t.Granted s.acting ∨ ∀ permission ∈ s.acting, ¬ t.Overlong permission) := by
  unfold Exact
  rcases findSession_eq session args with ⟨hun, hfind⟩ | ⟨hun, hfind⟩
  · cases hs : args.findSome? (sessionOf session) with
    | none =>
      rw [hs] at hfind
      simp only [reduceCtorEq, false_implies, implies_true, iff_true]
      exact ⟨_, by rw [Authorize, hfind]⟩
    | some s =>
      rw [hs] at hfind
      simp only [authorize_of_session hfind, Option.some.injEq, forall_eq', hun, true_and]
      rw [← matches_granted_iff]
      by_cases hm : IsPermissionsMatches t.text s.acting <;> simp [hm]
  · -- the wrapper throws a type error, which is right only when there is no session
    have hthrew : Authorize t.text session originalMethod args = .threw .typeError := by rw [Authorize, hfind]
    cases hs : args.findSome? (sessionOf session) with
    | none =>
      simp only [reduceCtorEq, false_implies, implies_true, iff_true]
      exact ⟨_, hthrew⟩
    | some s =>
      have hne : (.threw .typeError : Wrapped β) ≠ .threw notAuthorized := by simp [notAuthorized]
      simp only [hthrew, Option.some.injEq, forall_eq', hun, false_and, iff_false, hne, reduceCtorEq]
      exact fun h => h.2 h.1

/-- The type of a permission: a wildcard, or a lowercase text before `/*`, or before an operation and
another one. -/
def IsPermission (permission : String) : Prop :=
  permission = "*" ∨ permission = "*/read/*" ∨ permission = "*/write/*" ∨
    ∃ a : String, a.toLower = a ∧ (permission = a ++ "/*" ∨
      ∃ b : String, b.toLower = b ∧ (permission = a ++ "/read/" ++ b ∨ permission = a ++ "/write/" ++ b))

/-- The target `topic/read/action`. -/
def topicReadAction : Target where
  topic := "topic"
  operation := "read"
  action := "action"
  operation_ok := Or.inl rfl
  topic_slash := by decide
  topic_star := by decide
  action_slash := by decide
  action_star := by decide

/-- **A permission that goes on is let through**: a user whose only permission is another one than
the target calls the method. -/
theorem authorize_lets_longer_through : IsPermission "topic/read/action/extra" ∧
    "topic/read/action/extra" ≠ topicReadAction.text ∧
    ¬ Exact topicReadAction (fun s : Session => some (.session s)) (fun _ => ())
      [⟨⟨"u", ["topic/read/action/extra"]⟩, none, none⟩] := by
  refine ⟨?_, by decide +kernel, ?_⟩
  · refine Or.inr (Or.inr (Or.inr ⟨"topic", by decide +kernel, Or.inr ⟨"action/extra", by decide +kernel, Or.inl ?_⟩⟩))
    decide +kernel
  · intro h
    have hno : ¬ topicReadAction.Granted ["topic/read/action/extra"] := by
      rintro ⟨permission, hmem, hp⟩
      rw [List.mem_singleton] at hmem
      subst hmem
      revert hp
      decide +kernel
    have hran : Authorize topicReadAction.text (fun s : Session => some (.session s)) (fun _ => ())
        [⟨⟨"u", ["topic/read/action/extra"]⟩, none, none⟩] = .ran () := by
      have hm : IsPermissionsMatches topicReadAction.text ["topic/read/action/extra"] := by decide +kernel
      rw [authorize_of_session rfl]
      exact if_pos hm
    have hthrew := h.2 hno
    rw [hran] at hthrew
    cases hthrew

end Wrapper

end NodeToolkit
