import Mathlib.Data.Nat.Digits.Defs
import Mathlib.Data.List.Basic
import Mathlib.Data.String.Basic

/-!
# Debug forms of strings

Rust's `{:?}` of a string, of a pair and of a vector: a string is quoted, and its quotes, backslashes and unprintable
characters are escaped. Such a form is `Delimited`: a text that begins with one says what it is of, and where it ends.
Which characters are printable is a parameter.
-/

namespace Debug

variable {α β : Type*}

/-- A text that begins with the form of a value begins with that of no other, and says where the form ends. -/
def Delimited (form : α → List Char) : Prop :=
  ∀ ⦃a b : α⦄ ⦃s t : List Char⦄, form a ++ s = form b ++ t → a = b ∧ s = t

/-- No form begins with this character. -/
def Avoids (x : Char) (form : α → List Char) : Prop := ∀ a s t, form a ++ s ≠ x :: t

/-- Texts cut at a character that neither has before. -/
theorem cut {x : Char} {a b s t : List Char} (ha : x ∉ a) (hb : x ∉ b) (h : a ++ x :: s = b ++ x :: t) :
    a = b ∧ s = t := by
  induction a generalizing b with
  | nil =>
    cases b with
    | nil => exact ⟨rfl, (List.cons.inj h).2⟩
    | cons y b => exact absurd ((List.cons.inj h).1 ▸ List.mem_cons_self) hb
  | cons y a ih =>
    cases b with
    | nil => exact absurd ((List.cons.inj h).1 ▸ List.mem_cons_self) ha
    | cons z b =>
      obtain ⟨rfl, htail⟩ := List.cons.inj h
      obtain ⟨rfl, hst⟩ :=
          ih (fun hx => ha (List.mem_cons_of_mem _ hx)) (fun hx => hb (List.mem_cons_of_mem _ hx)) htail
      exact ⟨rfl, hst⟩

/-- Texts cut at a character that neither has after. -/
theorem cut_last {x : Char} {a b s t : List Char} (hs : x ∉ s) (ht : x ∉ t) (h : a ++ x :: s = b ++ x :: t) :
    a = b ∧ s = t := by
  have hreverse : s.reverse ++ x :: a.reverse = t.reverse ++ x :: b.reverse := by
    simpa using congrArg List.reverse h
  obtain ⟨hst, hab⟩ := cut (fun hx => hs (List.mem_reverse.1 hx)) (fun hx => ht (List.mem_reverse.1 hx)) hreverse
  exact ⟨List.reverse_injective hab, List.reverse_injective hst⟩

/-! ## Numbers -/

/-- A number is written in digits alone. -/
theorem notMem_repr {c : Char} (hc : c.isDigit = false) (n : Nat) : c ∉ (Nat.repr n).toList := by
  intro h
  rw [Nat.toList_repr] at h
  have hdigit := Nat.isDigit_of_mem_toDigits (by omega) (by omega) h
  rw [hc] at hdigit
  cases hdigit

/-- No two numbers are written alike. -/
theorem repr_inj {m n : Nat} (h : Nat.repr m = Nat.repr n) : m = n := by
  have hlist := congrArg String.toList h
  rw [Nat.toList_repr, Nat.toList_repr] at hlist
  have hval := congrArg (fun ds => Nat.ofDigitChars 10 ds 0) hlist
  simpa using hval

theorem toString_int (n : Int) :
    toString n = if 0 ≤ n then Nat.repr n.toNat else "-" ++ Nat.repr (-n).toNat := Int.repr_eq_if

/-- A number is written in digits, after a minus sign. -/
theorem notMem_toString {c : Char} (hc : c.isDigit = false) (hne : c ≠ '-') (n : Int) : c ∉ (toString n).toList := by
  rw [toString_int]
  split
  · exact notMem_repr hc _
  · rw [String.toList_append, List.mem_append, not_or]
    exact ⟨by simpa using hne, notMem_repr hc _⟩

theorem toString_int_inj {m n : Int} (h : toString m = toString n) : m = n := by
  have hsign : ∀ k l : Nat, Nat.repr k ≠ "-" ++ Nat.repr l := by
    intro k l heq
    have hmem : '-' ∈ (Nat.repr k).toList := by
      rw [heq, String.toList_append]
      exact List.mem_append_left _ (by decide)
    exact notMem_repr rfl k hmem
  rw [toString_int, toString_int] at h
  split at h <;> split at h
  · have hnat := repr_inj h
    omega
  · exact absurd h (hsign _ _)
  · exact absurd h.symm (hsign _ _)
  · have hnat := repr_inj ((String.append_right_inj _).1 h)
    omega

/-! ## Characters -/

/-- The characters escaped by a letter. -/
def letters : List (Char × Char) :=
  [('\x00', '0'), ('\t', 't'), ('\r', 'r'), ('\n', 'n'), ('\x22', '\x22'), ('\\', '\\')]

/-- A number in hexadecimal, in lower case. -/
def hex (n : Nat) : List Char := (Nat.digits 16 n).reverse.map Nat.digitChar

/-- A character in a string. -/
def char (printable : Char → Bool) (c : Char) : List Char :=
  match letters.lookup c with
  | some l => ['\\', l]
  | none => if printable c then [c] else '\\' :: 'u' :: '{' :: (hex c.toNat ++ ['}'])

theorem mem_letters {c l : Char} (h : letters.lookup c = some l) : (c, l) ∈ letters := by
  obtain ⟨_, _, heq, _⟩ := List.lookup_eq_some_iff.1 h
  rw [heq]
  simp

/-- No two characters are escaped by one letter. -/
theorem letter_inj {c d l : Char} (hc : letters.lookup c = some l) (hd : letters.lookup d = some l) : c = d := by
  have hall : ∀ p ∈ letters, ∀ q ∈ letters, p.2 = q.2 → p.1 = q.1 := by decide
  exact hall _ (mem_letters hc) _ (mem_letters hd) rfl

/-- None is escaped by the letter of the other escapes. -/
theorem letter_ne {c l : Char} (h : letters.lookup c = some l) : l ≠ 'u' := by
  have hall : ∀ p ∈ letters, p.2 ≠ 'u' := by decide
  exact hall _ (mem_letters h)

/-- Quotes and backslashes have letters. -/
theorem letter_none {c : Char} (h : letters.lookup c = none) : c ≠ '\x22' ∧ c ≠ '\\' := by
  constructor
  · rintro rfl
    exact absurd h (by decide)
  · rintro rfl
    exact absurd h (by decide)

theorem digitChar_inj {m n : Nat} (hm : m < 16) (hn : n < 16) (h : Nat.digitChar m = Nat.digitChar n) : m = n := by
  have hall : ∀ i j : Fin 16, Nat.digitChar i = Nat.digitChar j → i = j := by decide
  exact congrArg Fin.val (hall ⟨m, hm⟩ ⟨n, hn⟩ h)

/-- No two numbers have one hexadecimal. -/
theorem hex_inj {m n : Nat} (h : hex m = hex n) : m = n := by
  unfold hex at h
  have hdigits : ∀ {xs ys : List Nat}, (∀ x ∈ xs, x < 16) → (∀ y ∈ ys, y < 16) →
      xs.map Nat.digitChar = ys.map Nat.digitChar → xs = ys := by
    intro xs ys hx hy hmap
    induction xs generalizing ys with
    | nil => exact (List.map_eq_nil_iff.1 hmap.symm).symm
    | cons x xs ih =>
      cases ys with
      | nil => simp at hmap
      | cons y ys =>
        obtain ⟨hxy, hrest⟩ := List.cons.inj hmap
        have hhead := digitChar_inj (hx x List.mem_cons_self) (hy y List.mem_cons_self) hxy
        have htail :=
            ih (fun z hz => hx z (List.mem_cons_of_mem _ hz)) (fun z hz => hy z (List.mem_cons_of_mem _ hz)) hrest
        rw [hhead, htail]
  have hlt : ∀ k : Nat, ∀ d ∈ (Nat.digits 16 k).reverse, d < 16 := fun k d hd =>
    Nat.digits_lt_base (by decide) (List.mem_reverse.1 hd)
  exact Nat.digits_inj_iff.1 (List.reverse_injective (hdigits (hlt m) (hlt n) h))

/-- A hexadecimal number has no closing brace. -/
theorem stop_notMem_hex (n : Nat) : '}' ∉ hex n := by
  intro h
  obtain ⟨d, hd, heq⟩ := List.mem_map.1 h
  have hlt : d < 16 := Nat.digits_lt_base (by decide) (List.mem_reverse.1 hd)
  have hall : ∀ i : Fin 16, Nat.digitChar i ≠ '}' := by decide
  exact hall ⟨d, hlt⟩ heq

/-- A character is written as it is, or after a backslash. -/
theorem char_plain_or (printable : Char → Bool) (c : Char) :
    (char printable c = [c] ∧ c ≠ '\x22' ∧ c ≠ '\\') ∨ ∃ code, char printable c = '\\' :: code := by
  unfold char
  cases hl : letters.lookup c with
  | some l => exact .inr ⟨[l], rfl⟩
  | none =>
    cases printable c with
    | true => exact .inl ⟨rfl, letter_none hl⟩
    | false => exact .inr ⟨_, rfl⟩

/-- An escaped character holds no quote. -/
theorem char_avoids (printable : Char → Bool) : Avoids '\x22' (char printable) := by
  intro c s t h
  rcases char_plain_or printable c with ⟨hc, hne, _⟩ | ⟨code, hc⟩
  · rw [hc] at h
    exact hne (List.cons.inj h).1
  · rw [hc] at h
    exact absurd (List.cons.inj h).1 (by decide)

/-- It shows where it ends. -/
theorem char_delimited (printable : Char → Bool) : Delimited (char printable) := by
  intro c d s t h
  unfold char at h
  cases hc : letters.lookup c with
  | some l =>
    cases hd : letters.lookup d with
    | some k =>
      simp only [hc, hd, List.cons_append, List.nil_append, List.cons.injEq, true_and] at h
      obtain ⟨rfl, hst⟩ := h
      exact ⟨letter_inj hc hd, hst⟩
    | none =>
      exfalso
      simp only [hc, hd] at h
      split at h
      · exact (letter_none hd).2 (List.cons.inj h).1.symm
      · exact letter_ne hc (List.cons.inj (List.cons.inj h).2).1
  | none =>
    cases hd : letters.lookup d with
    | some k =>
      exfalso
      simp only [hc, hd] at h
      split at h
      · exact (letter_none hc).2 (List.cons.inj h).1
      · exact letter_ne hd (List.cons.inj (List.cons.inj h).2).1.symm
    | none =>
      simp only [hc, hd] at h
      split at h <;> split at h
      · exact List.cons.inj h
      · exact absurd (List.cons.inj h).1 (letter_none hc).2
      · exact absurd (List.cons.inj h).1.symm (letter_none hd).2
      · -- Two numbers, each up to its closing brace.
        simp only [List.cons_append, List.append_assoc, List.nil_append, List.cons.injEq, true_and] at h
        obtain ⟨hhex, hst⟩ := cut (stop_notMem_hex _) (stop_notMem_hex _) h
        exact ⟨Char.toNat_inj.1 (hex_inj hhex), hst⟩

/-! ## Strings, pairs and vectors -/

/-- `{:?}` of a string. -/
def string (printable : Char → Bool) (s : String) : List Char :=
  '\x22' :: (s.toList.flatMap (char printable) ++ ['\x22'])

/-- `{:?}` of a pair. -/
def pair (form : α → List Char) (form' : β → List Char) (p : α × β) : List Char :=
  '(' :: (form p.1 ++ ',' :: ' ' :: (form' p.2 ++ [')']))

/-- What follows an element of a vector. -/
def rest (form : α → List Char) : List α → List Char
  | [] => [']']
  | a :: as => ',' :: ' ' :: (form a ++ rest form as)

/-- `{:?}` of a vector. -/
def vec (form : α → List Char) : List α → List Char
  | [] => ['[', ']']
  | a :: as => '[' :: (form a ++ rest form as)

/-- So does a string. -/
theorem string_delimited (printable : Char → Bool) : Delimited (string printable) := by
  have hchars : ∀ (cs ds : List Char) (s t : List Char),
      cs.flatMap (char printable) ++ '\x22' :: s = ds.flatMap (char printable) ++ '\x22' :: t → cs = ds ∧ s = t := by
    intro cs
    induction cs with
    | nil =>
      intro ds s t h
      cases ds with
      | nil => exact ⟨rfl, (List.cons.inj h).2⟩
      | cons d ds =>
        rw [List.flatMap_cons, List.append_assoc] at h
        exact absurd h.symm (char_avoids printable _ _ _)
    | cons c cs ih =>
      intro ds s t h
      cases ds with
      | nil =>
        rw [List.flatMap_cons, List.append_assoc] at h
        exact absurd h (char_avoids printable _ _ _)
      | cons d ds =>
        rw [List.flatMap_cons, List.flatMap_cons, List.append_assoc, List.append_assoc] at h
        obtain ⟨rfl, hrest⟩ := char_delimited printable h
        obtain ⟨rfl, hst⟩ := ih ds s t hrest
        exact ⟨rfl, hst⟩
  intro a b s t h
  simp only [string, List.cons_append, List.append_assoc, List.nil_append, List.cons.injEq, true_and] at h
  obtain ⟨hlist, hst⟩ := hchars _ _ _ _ h
  exact ⟨String.toList_inj.1 hlist, hst⟩

/-- A pair shows where it ends when its parts do. -/
theorem pair_delimited {form : α → List Char} {form' : β → List Char} (h : Delimited form) (h' : Delimited form') :
    Delimited (pair form form') := by
  rintro ⟨a, b⟩ ⟨c, d⟩ s t heq
  simp only [pair, List.cons_append, List.append_assoc, List.nil_append, List.cons.injEq, true_and] at heq
  obtain ⟨rfl, hsecond⟩ := h heq
  simp only [List.cons.injEq, true_and] at hsecond
  obtain ⟨rfl, hstop⟩ := h' hsecond
  exact ⟨rfl, (List.cons.inj hstop).2⟩

/-- So does the rest of a list. -/
theorem rest_delimited {form : α → List Char} (h : Delimited form) : Delimited (rest form) := by
  intro as
  induction as with
  | nil =>
    intro bs s t heq
    cases bs with
    | nil => exact ⟨rfl, (List.cons.inj heq).2⟩
    | cons b bs => exact absurd (List.cons.inj heq).1 (by decide)
  | cons a as ih =>
    intro bs s t heq
    cases bs with
    | nil => exact absurd (List.cons.inj heq).1 (by decide)
    | cons b bs =>
      simp only [rest, List.cons_append, List.append_assoc, List.cons.injEq, true_and] at heq
      obtain ⟨rfl, hrest⟩ := h heq
      obtain ⟨rfl, hst⟩ := ih hrest
      exact ⟨rfl, hst⟩

/-- Where no element's form is taken for the closing bracket. -/
theorem vec_delimited {form : α → List Char} (h : Delimited form)
    (havoids : Avoids ']' form) : Delimited (vec form) := by
  intro as bs s t heq
  cases as with
  | nil =>
    cases bs with
    | nil =>
      simp only [vec, List.cons_append, List.nil_append, List.cons.injEq, true_and] at heq
      exact ⟨rfl, heq⟩
    | cons b bs =>
      simp only [vec, List.cons_append, List.append_assoc, List.nil_append, List.cons.injEq, true_and] at heq
      exact absurd heq.symm (havoids _ _ _)
  | cons a as =>
    cases bs with
    | nil =>
      simp only [vec, List.cons_append, List.append_assoc, List.nil_append, List.cons.injEq, true_and] at heq
      exact absurd heq (havoids _ _ _)
    | cons b bs =>
      simp only [vec, List.cons_append, List.append_assoc, List.cons.injEq, true_and] at heq
      obtain ⟨rfl, hrest⟩ := h heq
      obtain ⟨rfl, hst⟩ := rest_delimited h hrest
      exact ⟨rfl, hst⟩

theorem string_avoids (printable : Char → Bool) : Avoids ']' (string printable) := by
  intro a s t h
  exact absurd (List.cons.inj h).1 (by decide)

theorem pair_avoids (form : α → List Char) (form' : β → List Char) : Avoids ']' (pair form form') := by
  intro a s t h
  exact absurd (List.cons.inj h).1 (by decide)

end Debug
