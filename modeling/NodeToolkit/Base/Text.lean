import Mathlib.Algebra.Ring.Nat
import Mathlib.Data.List.DropRight
import Mathlib.Data.List.Basic
import Std.Data.String.ToNat

/-!
# Texts of keys and numbers

Composite keys are texts joined by a separator, and numbers are written into
texts and read back. This module has the two facts such encodings rest on:

* a separator determines the two sides of a text once one side is free of it
  (`cons_sep_inj`, `snoc_sep_inj`);
* `numberToString`, the text ECMAScript gives a whole number, is injective
  (`numberToString_inj`) and free of separators; `parseInt` reads it back below
  `10^21` only, from there on the text has an exponent and `parseInt` stops at
  its first digit (`parseInt_numberToString`).
-/

namespace NodeToolkit

/-! ## Separators -/

section Sep

variable {α : Type*} {a b c d : List α} {x : α}

/-- The first separator splits a text. -/
theorem cons_sep_inj (ha : x ∉ a) (hc : x ∉ c) (h : a ++ x :: b = c ++ x :: d) :
    a = c ∧ b = d := by
  induction a generalizing c with
  | nil =>
    cases c with
    | nil => exact ⟨rfl, (List.cons.inj h).2⟩
    | cons y c => exact absurd (List.cons.inj h).1 (fun hxy => hc (hxy ▸ List.mem_cons_self))
  | cons y a ih =>
    cases c with
    | nil => exact absurd (List.cons.inj h).1 (fun hyx => ha (hyx ▸ List.mem_cons_self))
    | cons z c =>
      simp only [List.cons_append, List.cons.injEq, List.mem_cons, not_or] at h ha hc
      obtain ⟨h1, h2⟩ := ih ha.2 hc.2 h.2
      exact ⟨by rw [h.1, h1], h2⟩

/-- The last separator splits a text. -/
theorem snoc_sep_inj (hb : x ∉ b) (hd : x ∉ d) (h : a ++ x :: b = c ++ x :: d) :
    a = c ∧ b = d := by
  have hr := congrArg List.reverse h
  simp only [List.reverse_append, List.reverse_cons, List.append_assoc, List.singleton_append] at hr
  obtain ⟨h1, h2⟩ := cons_sep_inj (by simpa using hb) (by simpa using hd) hr
  exact ⟨List.reverse_injective h2, List.reverse_injective h1⟩

end Sep

/-- The text before the first `:` and the text after it. -/
theorem colon_inj_left {a b c d : String} (ha : ':' ∉ a.toList) (hc : ':' ∉ c.toList)
    (h : a ++ ":" ++ b = c ++ ":" ++ d) : a = c ∧ b = d := by
  have hl := congrArg String.toList h
  simp only [String.toList_append] at hl
  have := cons_sep_inj (b := b.toList) (d := d.toList) ha hc (by simpa using hl)
  exact ⟨String.toList_inj.1 this.1, String.toList_inj.1 this.2⟩

/-- The text before the last `:` and the text after it. -/
theorem colon_inj_right {a b c d : String} (hb : ':' ∉ b.toList) (hd : ':' ∉ d.toList)
    (h : a ++ ":" ++ b = c ++ ":" ++ d) : a = c ∧ b = d := by
  have hl := congrArg String.toList h
  simp only [String.toList_append] at hl
  have := snoc_sep_inj (a := a.toList) (c := c.toList) hb hd (by simpa using hl)
  exact ⟨String.toList_inj.1 this.1, String.toList_inj.1 this.2⟩

/-- `text.split(c)`. -/
def split (s : String) (c : Char) : List String := (s.toList.splitOn c).map String.ofList

/-- A separator between two texts. -/
theorem split_append_sep (a b : String) (c : Char) : split (a ++ c.toString ++ b) c = split a c ++ split b c := by
  have hlist : (a ++ c.toString ++ b).toList = a.toList ++ c :: b.toList := by simp [Char.toString]
  rw [split, hlist, List.splitOn_append_cons_self, List.map_append]
  rfl

theorem split_self {a : String} {c : Char} (ha : c ∉ a.toList) : split a c = [a] := by
  rw [split, List.splitOn_eq_singleton ha, List.map_singleton, String.ofList_toList]

theorem split_append {a b : String} {c : Char} (ha : c ∉ a.toList) :
    split (a ++ c.toString ++ b) c = a :: split b c := by
  rw [split_append_sep, split_self ha]
  rfl

/-- Texts joined by the separator. -/
theorem split_intercalate {c : Char} {texts : List String} (h : texts ≠ []) :
    split (String.intercalate c.toString texts) c = texts.flatMap fun text => split text c := by
  induction texts with
  | nil => exact absurd rfl h
  | cons text texts ih =>
    cases texts with
    | nil => simp
    | cons next texts =>
      rw [String.intercalate_cons_cons, split_append_sep, ih (by simp)]
      rfl

theorem notMem_of_mem_splitOn {α : Type*} [BEq α] [LawfulBEq α] {x : α} {l : List α} :
    ∀ {piece : List α}, piece ∈ l.splitOn x → x ∉ piece := by
  induction l with
  | nil => simp
  | cons y l ih =>
    intro piece hmem
    rw [List.splitOn_cons_eq_if_modifyHead] at hmem
    split at hmem
    · rcases List.mem_cons.1 hmem with rfl | hrest
      · exact List.not_mem_nil
      · exact ih hrest
    · rename_i hne
      cases hl : l.splitOn x with
      | nil => exact absurd hl (List.splitOn_ne_nil x l)
      | cons first rest =>
        rw [hl] at ih hmem
        rcases List.mem_cons.1 hmem with rfl | hrest
        · have hy : x ≠ y := fun heq => hne (beq_iff_eq.2 heq.symm)
          exact List.not_mem_cons_of_ne_of_not_mem hy (ih List.mem_cons_self)
        · exact ih (List.mem_cons_of_mem _ hrest)

/-- The pieces of a text do not have the separator. -/
theorem notMem_of_mem_split {s piece : String} {c : Char} (h : piece ∈ split s c) : c ∉ piece.toList := by
  obtain ⟨l, hl, rfl⟩ := List.mem_map.1 h
  rw [String.toList_ofList]
  exact notMem_of_mem_splitOn hl

/-! ## Blanks -/

/-- The white space and line ends of ECMAScript. -/
def isWhiteSpace (c : Char) : Bool :=
  c.toNat ∈ [0x09, 0x0A, 0x0B, 0x0C, 0x0D, 0x20, 0xA0, 0x1680, 0x2028, 0x2029, 0x202F, 0x205F, 0x3000, 0xFEFF] ||
    0x2000 ≤ c.toNat && c.toNat ≤ 0x200A

/-- `text.trim()`. -/
def trim (text : String) : String := String.ofList ((text.toList.dropWhile isWhiteSpace).rdropWhile isWhiteSpace)

/-! ## Whole numbers -/

/-- The digits of a number without its final zeros. -/
def significand (ds : List Char) : List Char := ds.rdropWhile (· = '0')

/-- `Number::toString` of a whole number: its decimal digits, or from `10^21` on a
mantissa and an exponent. -/
def numberToString (n : ℕ) : String :=
  if n < 10 ^ 21 then toString n
  else
    let ds := Nat.toDigits 10 n
    String.ofList (((significand ds).take 1 ++
      (if (significand ds).length ≤ 1 then [] else '.' :: (significand ds).drop 1)) ++
        'e' :: '+' :: Nat.toDigits 10 (ds.length - 1))

/-- `parseInt` of a text with no leading blank, sign or `0x`: the number its leading
digits write. A text with no leading digit, which JavaScript answers with `NaN`, gives `0`. -/
def parseInt (s : String) : ℕ := Nat.ofDigitChars 10 (s.toList.takeWhile Char.isDigit) 0

theorem isDigit_of_mem_digits {n : ℕ} {x : Char} (hx : x ∈ Nat.toDigits 10 n) : x.isDigit :=
  Nat.isDigit_of_mem_toDigits (by decide) (by decide) hx

theorem mem_significand {ds : List Char} {x : Char} (hx : x ∈ significand ds) : x ∈ ds :=
  (List.rdropWhile_prefix _ _).subset hx

/-- The final zeros are determined by the length. -/
theorem significand_append (ds : List Char) :
    significand ds ++ List.replicate (ds.length - (significand ds).length) '0' = ds := by
  have h := List.rdropWhile_append_rtakeWhile (p := (· = '0')) (l := ds)
  have hl := congrArg List.length h
  rw [List.length_append] at hl
  have hz : ds.rtakeWhile (· = '0') = List.replicate (ds.rtakeWhile (· = '0')).length '0' :=
    List.eq_replicate_iff.2 ⟨rfl, fun x hx => by simpa using List.mem_rtakeWhile_imp hx⟩
  conv_rhs => rw [← h, hz]
  unfold significand
  congr 2
  omega

theorem toDigits_inj {m n : ℕ} (h : Nat.toDigits 10 m = Nat.toDigits 10 n) : m = n := by
  have := congrArg (fun ds => Nat.ofDigitChars 10 ds 0) h
  simpa using this

/-- A character of the text of a number is a digit, `.`, `e` or `+`. -/
theorem mem_numberToString {n : ℕ} {x : Char} (hx : x ∈ (numberToString n).toList) :
    x.isDigit ∨ x = '.' ∨ x = 'e' ∨ x = '+' := by
  unfold numberToString at hx
  split at hx
  · left; exact isDigit_of_mem_digits (by simpa using hx)
  · simp only [String.toList_ofList, List.mem_append, List.mem_cons] at hx
    rcases hx with (hx | hx) | rfl | rfl | hx
    · left; exact isDigit_of_mem_digits (mem_significand (List.mem_of_mem_take hx))
    · split at hx
      · simp at hx
      · rcases List.mem_cons.1 hx with rfl | hx
        · simp
        · left; exact isDigit_of_mem_digits (mem_significand (List.mem_of_mem_drop hx))
    · simp
    · simp
    · left; exact isDigit_of_mem_digits hx

/-- The text of a number has no `:`. -/
theorem colon_notMem_numberToString (n : ℕ) : ':' ∉ (numberToString n).toList := by
  intro h
  rcases mem_numberToString h with h | h | h | h <;> exact absurd h (by decide)

/-- Mantissa and exponent determine the number. -/
theorem exponent_inj {m n : ℕ}
    (hs : significand (Nat.toDigits 10 m) = significand (Nat.toDigits 10 n))
    (hl : (Nat.toDigits 10 m).length = (Nat.toDigits 10 n).length) : m = n := by
  apply toDigits_inj
  rw [← significand_append (Nat.toDigits 10 m), ← significand_append (Nat.toDigits 10 n), hs, hl]

/-- The mantissa, written with its point, determines the significant digits. -/
theorem mantissa_inj {a b : List Char} (ha : '.' ∉ a) (hb : '.' ∉ b)
    (h : a.take 1 ++ (if a.length ≤ 1 then [] else '.' :: a.drop 1) =
      b.take 1 ++ (if b.length ≤ 1 then [] else '.' :: b.drop 1)) : a = b := by
  have key : ∀ l : List Char, '.' ∉ l →
      (l.take 1 ++ (if l.length ≤ 1 then [] else '.' :: l.drop 1)).filter (· ≠ '.') = l := by
    intro l hl
    have hf : l.filter (· ≠ '.') = l :=
      List.filter_eq_self.2 fun x hx => by simp only [decide_eq_true_eq]; rintro rfl; exact hl hx
    conv_rhs => rw [← hf, ← List.take_append_drop 1 l, List.filter_append]
    rw [List.filter_append]
    congr 1
    split
    · rw [List.drop_eq_nil_of_le (by omega)]
    · simp
  rw [← key a ha, h, key b hb]

/-- **The text of a number determines it.** -/
theorem numberToString_inj {m n : ℕ} (h : numberToString m = numberToString n) : m = n := by
  have hdot : ∀ k, '.' ∉ significand (Nat.toDigits 10 k) := fun k hk =>
    absurd (isDigit_of_mem_digits (mem_significand hk)) (by decide)
  have he : ∀ k, 'e' ∉ (significand (Nat.toDigits 10 k)).take 1 ++
      (if (significand (Nat.toDigits 10 k)).length ≤ 1 then []
        else '.' :: (significand (Nat.toDigits 10 k)).drop 1) := by
    intro k hk
    rcases List.mem_append.1 hk with hk | hk
    · exact absurd (isDigit_of_mem_digits (mem_significand (List.mem_of_mem_take hk))) (by decide)
    · split at hk
      · simp at hk
      · rcases List.mem_cons.1 hk with hk | hk
        · exact absurd hk (by decide)
        · exact absurd (isDigit_of_mem_digits (mem_significand (List.mem_of_mem_drop hk))) (by decide)
  have hno : ∀ k, 'e' ∉ Nat.toDigits 10 k := fun k hk => absurd (isDigit_of_mem_digits hk) (by decide)
  have hl := congrArg String.toList h
  unfold numberToString at hl
  by_cases hm : m < 10 ^ 21 <;> by_cases hn : n < 10 ^ 21
  · rw [if_pos hm, if_pos hn] at hl
    exact toDigits_inj (by simpa using hl)
  · rw [if_pos hm, if_neg hn] at hl
    -- only the text of `n` has an `e`
    have hmem : 'e' ∈ (toString m).toList := by
      rw [hl]
      simp
    exact absurd hmem (by simpa using hno m)
  · rw [if_neg hm, if_pos hn] at hl
    have hmem : 'e' ∈ (toString n).toList := by
      rw [← hl]
      simp
    exact absurd hmem (by simpa using hno n)
  · rw [if_neg hm, if_neg hn] at hl
    simp only [String.toList_ofList] at hl
    obtain ⟨h1, h2⟩ := cons_sep_inj (he m) (he n) hl
    have hlen := toDigits_inj (List.cons.inj h2).2
    have hm0 := Nat.length_toDigits_pos (b := 10) (n := m)
    have hn0 := Nat.length_toDigits_pos (b := 10) (n := n)
    exact exponent_inj (mantissa_inj (hdot m) (hdot n) h1) (by omega)

/-! ## Reading a number back -/

/-- `parseInt` stops at a `:`. -/
theorem parseInt_colon (a b : String) : parseInt (a ++ ":" ++ b) = parseInt a := by
  unfold parseInt
  congr 1
  simp only [String.toList_append, List.append_assoc]
  induction a.toList with
  | nil => simp
  | cons x l ih =>
    by_cases hx : x.isDigit
    · simp only [List.cons_append, List.takeWhile_cons_of_pos hx, ih]
    · simp [List.takeWhile_cons_of_neg hx]

/-- Below `10^21` `parseInt` reads a number back. -/
theorem parseInt_numberToString {n : ℕ} (hn : n < 10 ^ 21) : parseInt (numberToString n) = n := by
  have hd : ∀ x ∈ Nat.toDigits 10 n, x.isDigit := fun x hx => isDigit_of_mem_digits hx
  rw [numberToString, if_pos hn, parseInt, Nat.toString_eq_repr, Nat.toList_repr,
    List.takeWhile_eq_self_iff.2 hd, Nat.ofDigitChars_ten_toDigits]

theorem ofDigitChars_lt : ∀ {l : List Char}, (∀ x ∈ l, x.isDigit) →
    Nat.ofDigitChars 10 l 0 < 10 ^ l.length := by
  intro l
  induction l with
  | nil => simp
  | cons x l ih =>
    intro h
    have hx := h x List.mem_cons_self
    have h9 : x.toNat - '0'.toNat ≤ 9 := by
      simp only [Char.isDigit, Bool.and_eq_true, decide_eq_true_eq] at hx
      have h2 : x.toNat ≤ '9'.toNat := hx.2
      have : '9'.toNat = 57 := rfl
      have : '0'.toNat = 48 := rfl
      omega
    have hl := ih fun y hy => h y (List.mem_cons_of_mem _ hy)
    rw [Nat.ofDigitChars_cons, Nat.ofDigitChars_eq_ofDigitChars_zero, List.length_cons, Nat.pow_succ]
    have hp : 10 ^ l.length * (10 * 0 + (x.toNat - '0'.toNat)) ≤ 10 ^ l.length * 9 :=
      Nat.mul_le_mul_left _ (by omega)
    omega

/-- A positive number does not start with `0`. -/
theorem head_toDigits {n : ℕ} (hn : 0 < n) : (Nat.toDigits 10 n).head? ≠ some '0' := by
  intro h
  obtain ⟨l, hl⟩ := List.head?_eq_some_iff.1 h
  have hv := Nat.ofDigitChars_ten_toDigits (n := n)
  rw [hl, Nat.ofDigitChars_cons] at hv
  have hlt := ofDigitChars_lt (l := l) fun x hx =>
    isDigit_of_mem_digits (n := n) (hl ▸ List.mem_cons_of_mem _ hx)
  have hv' : Nat.ofDigitChars 10 l 0 = n := hv
  rw [hv'] at hlt
  rcases Nat.eq_zero_or_pos l.length with h0 | h0
  · rw [h0] at hlt; omega
  · have := (Nat.length_toDigits_le_iff (b := 10) (by decide) h0).2 hlt
    rw [hl, List.length_cons] at this
    omega

/-- What `parseInt` reads of a positive number is positive, at any size. -/
theorem parseInt_numberToString_pos {n : ℕ} (hn : 0 < n) : 0 < parseInt (numberToString n) := by
  by_cases h21 : n < 10 ^ 21
  · rw [parseInt_numberToString h21]; exact hn
  · obtain ⟨d, ds, hds⟩ := List.exists_cons_of_ne_nil (Nat.toDigits_ne_nil (n := n) (b := 10))
    have hd0 : d ≠ '0' := by
      have := head_toDigits hn
      rw [hds] at this
      simpa using this
    have hdig : d.isDigit := isDigit_of_mem_digits (n := n) (hds ▸ List.mem_cons_self)
    -- the first digit is significant, and the character after it is `.` or `e`
    obtain ⟨l, hl⟩ : ∃ l, significand (d :: ds) = d :: l := by
      obtain ⟨t, ht⟩ := List.rdropWhile_prefix (· = '0') (d :: ds)
      cases hs : significand (d :: ds) with
      | nil =>
        have := List.rdropWhile_eq_nil_iff.1 hs d List.mem_cons_self
        exact absurd (by simpa using this) hd0
      | cons e l =>
        have hs' : (d :: ds).rdropWhile (· = '0') = e :: l := hs
        rw [hs', List.cons_append] at ht
        exact ⟨l, by rw [(List.cons.inj ht).1]⟩
    have htake : (numberToString n).toList.takeWhile Char.isDigit = [d] := by
      simp only [numberToString, if_neg h21, hds, hl, String.toList_ofList]
      cases l <;> simp [hdig]
    rw [parseInt, htake, Nat.ofDigitChars_cons, Nat.ofDigitChars_nil]
    have h48 : '0'.toNat < d.toNat := by
      simp only [Char.isDigit, Bool.and_eq_true, decide_eq_true_eq] at hdig
      have h1 : '0'.toNat ≤ d.toNat := hdig.1
      have h2 : '0'.toNat ≠ d.toNat := fun h => hd0 (Char.toNat_inj.1 h).symm
      omega
    omega

end NodeToolkit
