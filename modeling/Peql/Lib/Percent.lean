import Mathlib.Data.List.Basic
import Mathlib.Data.String.Basic

/-!
# Percent-encoding

A reserved character is written as `%` and two hex digits for each byte of its UTF-8 form, the others as they are. Where
`%` itself is reserved, encoding is injective; and only a text without reserved characters is its own encoding, every
other is longer.
-/

namespace Percent

/-- The digit of a number below 16, in upper case. -/
def hexDigit (n : Nat) : Char := Char.ofNat (if n < 10 then 48 + n else 55 + n)

def escapeByte (b : UInt8) : List Char := ['%', hexDigit (b.toNat / 16), hexDigit (b.toNat % 16)]

def escape (c : Char) : List Char := (String.utf8EncodeChar c).flatMap escapeByte

def encodeChars (reserved : Char → Bool) (cs : List Char) : List Char :=
  cs.flatMap fun c => if reserved c then escape c else [c]

/-- The encoding of a text in which some characters are reserved. -/
def encode (reserved : Char → Bool) (s : String) : String := String.ofList (encodeChars reserved s.toList)

variable {reserved : Char → Bool}

@[simp] theorem toList_encode (s : String) : (encode reserved s).toList = encodeChars reserved s.toList :=
  String.toList_ofList

theorem encodeChars_cons (c : Char) (cs : List Char) :
    encodeChars reserved (c :: cs) = (if reserved c then escape c else [c]) ++ encodeChars reserved cs := rfl

theorem encodeChars_append (cs ds : List Char) :
    encodeChars reserved (cs ++ ds) = encodeChars reserved cs ++ encodeChars reserved ds :=
  List.flatMap_append

/-- Only which of its own characters are reserved matters to a text. -/
theorem encodeChars_congr {reserved' : Char → Bool} {cs : List Char} (h : ∀ c ∈ cs, reserved c = reserved' c) :
    encodeChars reserved cs = encodeChars reserved' cs := by
  induction cs with
  | nil => rfl
  | cons c cs ih =>
    rw [encodeChars_cons, encodeChars_cons, h c List.mem_cons_self, ih fun d hd => h d (List.mem_cons_of_mem _ hd)]

/-! ## One character -/

theorem hexDigit_inj {m n : Nat} (hm : m < 16) (hn : n < 16) (h : hexDigit m = hexDigit n) : m = n := by
  have hall : ∀ i j : Fin 16, hexDigit i = hexDigit j → i = j := by decide
  exact congrArg Fin.val (hall ⟨m, hm⟩ ⟨n, hn⟩ h)

theorem escapeByte_inj {b c : UInt8} (h : escapeByte b = escapeByte c) : b = c := by
  have hb := b.toNat_lt
  have hc := c.toNat_lt
  simp only [escapeByte, List.cons.injEq, and_true, true_and] at h
  have hhigh := hexDigit_inj (by omega) (by omega) h.1
  have hlow := hexDigit_inj (by omega) (by omega) h.2
  exact UInt8.toNat_inj.1 (by omega)

/-- Of two escaped byte sequences that begin alike, the shorter is the beginning of the longer. -/
theorem begins_of_escapeBytes {bs cs : List UInt8} {xs ys : List Char} (hle : bs.length ≤ cs.length)
    (h : bs.flatMap escapeByte ++ xs = cs.flatMap escapeByte ++ ys) : bs <+: cs := by
  induction bs generalizing cs with
  | nil => exact List.nil_prefix
  | cons b bs ih =>
    cases cs with
    | nil => simp at hle
    | cons c cs =>
      simp only [List.flatMap_cons, List.append_assoc] at h
      obtain ⟨hbyte, hrest⟩ := List.append_inj h rfl
      rw [escapeByte_inj hbyte]
      exact List.cons_prefix_cons.2 ⟨rfl, ih (by simpa using hle) hrest⟩

/-- No character's UTF-8 form begins with another's. -/
theorem eq_of_utf8EncodeChar_begins {c d : Char} (h : String.utf8EncodeChar c <+: String.utf8EncodeChar d) : c = d := by
  obtain ⟨rest, hrest⟩ := h
  have hc := ByteArray.utf8DecodeChar?_utf8EncodeChar_append (b := rest.toByteArray) (c := c)
  have hd := ByteArray.utf8DecodeChar?_utf8EncodeChar_append (b := ByteArray.empty) (c := d)
  rw [← List.toByteArray_append, hrest] at hc
  rw [ByteArray.append_empty] at hd
  exact Option.some.inj (hc.symm.trans hd)

theorem escape_inj {c d : Char} {xs ys : List Char} (h : escape c ++ xs = escape d ++ ys) : c = d := by
  rcases Nat.le_total (String.utf8EncodeChar c).length (String.utf8EncodeChar d).length with hle | hle
  · exact eq_of_utf8EncodeChar_begins (begins_of_escapeBytes hle h)
  · exact (eq_of_utf8EncodeChar_begins (begins_of_escapeBytes hle h.symm)).symm

theorem escape_eq_cons (c : Char) : ∃ cs, escape c = '%' :: cs ∧ 2 ≤ cs.length := by
  cases hb : String.utf8EncodeChar c with
  | nil => exact absurd hb String.utf8EncodeChar_ne_nil
  | cons b bs =>
    refine ⟨hexDigit (b.toNat / 16) :: hexDigit (b.toNat % 16) :: bs.flatMap escapeByte, ?_, by simp⟩
    rw [escape, hb]
    rfl

/-- An escape is of `%` and digits. -/
theorem notMem_escape {c d : Char} (hpercent : d ≠ '%') (hdigit : ∀ n < 16, hexDigit n ≠ d) : d ∉ escape c := by
  intro h
  obtain ⟨b, _, hb⟩ := List.mem_flatMap.1 h
  have hlt := b.toNat_lt
  simp only [escapeByte, List.mem_cons, List.not_mem_nil, or_false] at hb
  rcases hb with hb | hb | hb
  · exact hpercent hb
  · exact hdigit _ (by omega) hb.symm
  · exact hdigit _ (by omega) hb.symm

/-! ## Texts -/

/-- The first character is read off the encoding, and what is left is the encoding of the rest. -/
theorem encodeChars_injective (h : reserved '%' = true) : Function.Injective (encodeChars reserved) := by
  intro xs
  have hplain : ∀ c : Char, reserved c = false → c ≠ '%' := by
    rintro _ hc rfl
    rw [h] at hc
    cases hc
  -- An escaped character begins with `%`, which no character written as it is is.
  have hmixed : ∀ {c d : Char} {cs ds : List Char}, reserved d = false → escape c ++ cs ≠ d :: ds := by
    intro c d cs ds hd heq
    obtain ⟨tail, htail, _⟩ := escape_eq_cons c
    rw [htail] at heq
    exact hplain d hd (List.cons.inj heq).1.symm
  have hnil : ∀ {c : Char} {cs : List Char}, encodeChars reserved (c :: cs) ≠ [] := by
    intro c cs heq
    rw [encodeChars_cons] at heq
    obtain ⟨tail, htail, _⟩ := escape_eq_cons c
    split at heq
    · rw [htail] at heq
      cases heq
    · cases heq
  induction xs with
  | nil =>
    intro ys heq
    cases ys with
    | nil => rfl
    | cons y ys => exact absurd heq.symm hnil
  | cons x xs ih =>
    intro ys heq
    cases ys with
    | nil => exact absurd heq hnil
    | cons y ys =>
      rw [encodeChars_cons, encodeChars_cons] at heq
      cases hx : reserved x with
      | true =>
        cases hy : reserved y with
        | true =>
          simp only [hx, hy, if_true] at heq
          obtain rfl := escape_inj heq
          rw [ih (List.append_cancel_left heq)]
        | false =>
          simp only [hx, hy, if_true, Bool.false_eq_true, if_false] at heq
          exact absurd heq (hmixed hy)
      | false =>
        cases hy : reserved y with
        | true =>
          simp only [hx, hy, if_true, Bool.false_eq_true, if_false] at heq
          exact absurd heq.symm (hmixed hx)
        | false =>
          simp only [hx, hy, Bool.false_eq_true, if_false] at heq
          obtain ⟨rfl, hrest⟩ := List.cons.inj heq
          rw [ih hrest]

theorem encode_injective (h : reserved '%' = true) : Function.Injective (encode reserved) := by
  intro s t heq
  have hlist := congrArg String.toList heq
  rw [toList_encode, toList_encode] at hlist
  exact String.toList_inj.1 (encodeChars_injective h hlist)

theorem encodeChars_of_plain {cs : List Char} (h : ∀ c ∈ cs, reserved c = false) : encodeChars reserved cs = cs := by
  induction cs with
  | nil => rfl
  | cons c cs ih =>
    rw [encodeChars_cons, h c List.mem_cons_self, ih fun d hd => h d (List.mem_cons_of_mem _ hd)]
    rfl

theorem encode_of_plain {s : String} (h : ∀ c ∈ s.toList, reserved c = false) : encode reserved s = s := by
  rw [encode, encodeChars_of_plain h, String.ofList_toList]

theorem notMem_encodeChars {cs : List Char} {d : Char} (hpercent : d ≠ '%') (hdigit : ∀ n < 16, hexDigit n ≠ d)
    (h : d ∉ cs) : d ∉ encodeChars reserved cs := by
  intro hd
  obtain ⟨c, hc, hmem⟩ := List.mem_flatMap.1 hd
  split at hmem
  · exact notMem_escape hpercent hdigit hmem
  · obtain rfl := List.mem_singleton.1 hmem
    exact h hc

theorem length_le_encodeChars (cs : List Char) : cs.length ≤ (encodeChars reserved cs).length := by
  induction cs with
  | nil => exact Nat.le_refl _
  | cons c cs ih =>
    obtain ⟨tail, htail, hlen⟩ := escape_eq_cons c
    rw [encodeChars_cons]
    split
    · simp only [htail, List.length_append, List.length_cons]
      omega
    · simp only [List.length_append, List.length_cons, List.length_nil]
      omega

/-- A text with a reserved character grows. -/
theorem length_lt_encodeChars {cs : List Char} (h : ∃ c ∈ cs, reserved c = true) :
    cs.length < (encodeChars reserved cs).length := by
  induction cs with
  | nil =>
    obtain ⟨_, hc, _⟩ := h
    cases hc
  | cons c cs ih =>
    have hle : cs.length ≤ (encodeChars reserved cs).length := length_le_encodeChars cs
    rw [encodeChars_cons]
    cases hc : reserved c with
    | true =>
      obtain ⟨tail, htail, hlen⟩ := escape_eq_cons c
      simp only [if_true, htail, List.length_append, List.length_cons]
      omega
    | false =>
      obtain ⟨d, hd, hres⟩ := h
      rcases List.mem_cons.1 hd with rfl | hd
      · rw [hc] at hres
        cases hres
      · have hlt := ih ⟨d, hd, hres⟩
        simp only [Bool.false_eq_true, if_false, List.length_append, List.length_cons, List.length_nil]
        omega

end Percent
