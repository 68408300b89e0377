import Mathlib.Data.List.Basic
import Mathlib.Data.Char

/-!
# Text as bytes

The bytes of a text are those of its characters' encodings, one after another. A text is sliced from a byte index when
a character begins there, or the text ends there; elsewhere there is no slice (`sliceFrom`). An ASCII byte is the whole
encoding of one character, and is in no other's (`head?_bytes`, `high_of_not_ascii`).
-/

namespace Utf8

def bytes (cs : List Char) : List UInt8 := cs.flatMap String.utf8EncodeChar

/-- The text from a byte index on. -/
def sliceFrom : List Char → Nat → Option (List Char)
  | cs, 0 => some cs
  | [], _ + 1 => none
  | c :: cs, i + 1 => if c.utf8Size ≤ i + 1 then sliceFrom cs (i + 1 - c.utf8Size) else none

def IsAscii (c : Char) : Prop := c.val.toNat < 128

instance : DecidablePred IsAscii := fun c => inferInstanceAs (Decidable (c.val.toNat < 128))

@[simp] theorem bytes_nil : bytes [] = [] := rfl

@[simp] theorem bytes_cons (c : Char) (cs : List Char) : bytes (c :: cs) = String.utf8EncodeChar c ++ bytes cs := rfl

theorem bytes_append (xs ys : List Char) : bytes (xs ++ ys) = bytes xs ++ bytes ys := List.flatMap_append

/-- A text is sliced where some of its characters end. -/
theorem sliceFrom_append (xs ys : List Char) : sliceFrom (xs ++ ys) (bytes xs).length = some ys := by
  induction xs with
  | nil => unfold sliceFrom; rfl
  | cons c xs ih =>
    have hsize := c.utf8Size_pos
    have hlen : (bytes (c :: xs)).length = c.utf8Size + (bytes xs).length := by simp
    obtain ⟨k, hk⟩ : ∃ k, c.utf8Size + (bytes xs).length = k + 1 := ⟨c.utf8Size + (bytes xs).length - 1, by omega⟩
    rw [hlen, hk, List.cons_append, sliceFrom, if_pos (by omega),
      show k + 1 - c.utf8Size = (bytes xs).length by omega, ih]

theorem length_of_sliceFrom {cs ds : List Char} {i : Nat} (h : sliceFrom cs i = some ds) : ds.length ≤ cs.length := by
  induction cs, i using sliceFrom.induct with
  | case1 cs =>
    rw [sliceFrom] at h
    rw [Option.some.inj h]
  | case2 i =>
    rw [sliceFrom] at h
    cases h
  | case3 c cs i hsize ih =>
    rw [sliceFrom, if_pos hsize] at h
    exact Nat.le_trans (ih h) (Nat.le_succ _)
  | case4 c cs i hsize =>
    rw [sliceFrom, if_neg hsize] at h
    cases h

theorem encode_ascii {c : Char} (h : IsAscii c) : String.utf8EncodeChar c = [c.val.toUInt8] := by
  refine String.utf8EncodeChar_eq_singleton ?_
  rw [Char.utf8Size_eq_one_iff]
  exact Nat.lt_succ_iff.1 h

/-- No byte of another character's encoding is an ASCII byte. -/
theorem high_of_not_ascii {c : Char} (h : ¬ IsAscii c) : ∀ b ∈ String.utf8EncodeChar c, 128 ≤ b.toNat := by
  have hlarge : ¬ c.val.toNat ≤ 127 := fun hle => h (Nat.lt_succ_of_le hle)
  intro b hb
  unfold String.utf8EncodeChar at hb
  dsimp only at hb
  split at hb
  · contradiction
  · split at hb
    · simp only [List.mem_cons, List.not_mem_nil, or_false] at hb
      rcases hb with rfl | rfl <;> rw [UInt8.toNat_ofNat'] <;> omega
    · split at hb
      · simp only [List.mem_cons, List.not_mem_nil, or_false] at hb
        rcases hb with rfl | rfl | rfl <;> rw [UInt8.toNat_ofNat'] <;> omega
      · simp only [List.mem_cons, List.not_mem_nil, or_false] at hb
        rcases hb with rfl | rfl | rfl | rfl <;> rw [UInt8.toNat_ofNat'] <;> omega

theorem toUInt8_inj {c d : Char} (hc : IsAscii c) (hd : IsAscii d) (h : c.val.toUInt8 = d.val.toUInt8) : c = d := by
  have hnat := congrArg UInt8.toNat h
  rw [UInt32.toNat_toUInt8, UInt32.toNat_toUInt8] at hnat
  unfold IsAscii at hc hd
  refine Char.ext (UInt32.toNat_inj.1 ?_)
  omega

theorem toUInt8_lt {c : Char} (h : IsAscii c) : c.val.toUInt8.toNat < 128 := by
  rw [UInt32.toNat_toUInt8]
  unfold IsAscii at h
  omega

/-- The bytes of a text begin with an ASCII byte exactly when its characters begin with that byte's. -/
theorem head?_bytes {c : Char} (h : IsAscii c) (cs : List Char) :
    (bytes cs).head? = some c.val.toUInt8 ↔ cs.head? = some c := by
  cases cs with
  | nil => simp
  | cons d ds =>
    by_cases hd : IsAscii d
    · rw [bytes_cons, encode_ascii hd]
      simp only [List.cons_append, List.nil_append, List.head?_cons, Option.some.injEq]
      exact ⟨toUInt8_inj hd h, fun heq => by rw [heq]⟩
    · rw [bytes_cons]
      obtain ⟨b, bs, hbs⟩ := List.exists_cons_of_ne_nil (String.utf8EncodeChar_ne_nil (c := d))
      have hb := high_of_not_ascii hd b (by rw [hbs]; exact List.mem_cons_self)
      rw [hbs]
      simp only [List.cons_append, List.head?_cons, Option.some.injEq]
      constructor
      · rintro rfl
        exact absurd (toUInt8_lt h) (not_lt.2 hb)
      · rintro rfl
        exact absurd h hd

end Utf8
