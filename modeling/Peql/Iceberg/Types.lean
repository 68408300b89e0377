import Mathlib.Order.Defs.Unbundled
import Mathlib.Tactic.Tauto
import Peql.Iceberg.Schema

/-!
# What `same_type` compares

A type as its table's schema has it gives each nested field an id; the type without them is its `erase`. `same_type`
looks past the ids, and past whether a struct's fields and a map's values are required: it holds of two types exactly
when they are one once these are left out too (`sameType_iff`). So it is equality up to ids where these flags agree
(`same_up_to_ids_iff`).
-/

namespace Peql

mutual

/-- An Iceberg type, with the ids of its nested fields. -/
inductive NestedType
  | primitive (name : String)
  | list (id : Int) (required : Bool) (element : NestedType)
  | map (keyId : Int) (key : NestedType) (valueId : Int) (required : Bool) (value : NestedType)
  | struct (fields : NestedFields)

inductive NestedFields
  | nil
  | cons (id : Int) (name : String) (required : Bool) (type : NestedType) (rest : NestedFields)

end

mutual

/-- A type with the ids of its nested fields left out. -/
def NestedType.erase : NestedType → IcebergType
  | .primitive x => .primitive x
  | .list _ r t => .list r t.erase
  | .map _ k _ r v => .map k.erase r v.erase
  | .struct fs => .struct fs.erase

def NestedFields.erase : NestedFields → IcebergFields
  | .nil => .nil
  | .cons _ n r t fs => .cons n r t.erase fs.erase

end

mutual

/-- `same_type`, of types with ids. -/
def NestedType.same : NestedType → NestedType → Bool
  | .primitive x, .primitive y => x == y
  | .list _ r x, .list _ s y => r == s && x.same y
  | .map _ k _ _ v, .map _ l _ _ w => k.same l && v.same w
  | .struct fs, .struct gs => fs.same gs
  | _, _ => false

def NestedFields.same : NestedFields → NestedFields → Bool
  | .nil, .nil => true
  | .cons _ n _ t fs, .cons _ m _ u gs => n == m && t.same u && fs.same gs
  | _, _ => false

end

/-! ## Past the ids -/

mutual

theorem NestedType.same_eq : ∀ a b : NestedType, a.same b = sameType a.erase b.erase
  | .primitive _, .primitive _ => rfl
  | .list _ r x, .list _ s y => congrArg (r == s && ·) (x.same_eq y)
  | .map _ k _ _ v, .map _ l _ _ w => congrArg₂ (· && ·) (k.same_eq l) (v.same_eq w)
  | .struct fs, .struct gs => fs.same_eq gs
  | .primitive _, .list .. | .primitive _, .map .. | .primitive _, .struct _ => rfl
  | .list .., .primitive _ | .list .., .map .. | .list .., .struct _ => rfl
  | .map .., .primitive _ | .map .., .list .. | .map .., .struct _ => rfl
  | .struct _, .primitive _ | .struct _, .list .. | .struct _, .map .. => rfl

theorem NestedFields.same_eq : ∀ fs gs : NestedFields, fs.same gs = sameFields fs.erase gs.erase
  | .nil, .nil => rfl
  | .cons _ n _ t fs, .cons _ m _ u gs =>
    congrArg₂ (· && ·) (congrArg (n == m && ·) (t.same_eq u)) (fs.same_eq gs)
  | .nil, .cons .. | .cons .., .nil => rfl

end

/-! ## Past the flags -/

mutual

/-- A type in which struct fields and map values may all be missing. -/
def IcebergType.loosen : IcebergType → IcebergType
  | .primitive x => .primitive x
  | .list r t => .list r t.loosen
  | .map k _ v => .map k.loosen false v.loosen
  | .struct fs => .struct fs.loosen

def IcebergFields.loosen : IcebergFields → IcebergFields
  | .nil => .nil
  | .cons n _ t fs => .cons n false t.loosen fs.loosen

end

mutual

/-- Which struct fields and map values of a type are required, in order. -/
def IcebergType.flags : IcebergType → List Bool
  | .primitive _ => []
  | .list _ t => t.flags
  | .map k r v => r :: (k.flags ++ v.flags)
  | .struct fs => fs.flags

def IcebergFields.flags : IcebergFields → List Bool
  | .nil => []
  | .cons _ r t fs => r :: (t.flags ++ fs.flags)

end

mutual

/-- `same_type` compares types but for those flags. -/
theorem sameType_iff : ∀ a b : IcebergType, sameType a b = true ↔ a.loosen = b.loosen
  | .primitive x, .primitive y => by simp [sameType, IcebergType.loosen]
  | .list r x, .list s y => by simp [sameType, IcebergType.loosen, sameType_iff x y]
  | .map k _ v, .map l _ w => by simp [sameType, IcebergType.loosen, sameType_iff k l, sameType_iff v w]
  | .struct fs, .struct gs => by simp [sameType, IcebergType.loosen, sameFields_iff fs gs]
  | .primitive _, .list .. | .primitive _, .map .. | .primitive _, .struct _ => by simp [sameType, IcebergType.loosen]
  | .list .., .primitive _ | .list .., .map .. | .list .., .struct _ => by simp [sameType, IcebergType.loosen]
  | .map .., .primitive _ | .map .., .list .. | .map .., .struct _ => by simp [sameType, IcebergType.loosen]
  | .struct _, .primitive _ | .struct _, .list .. | .struct _, .map .. => by simp [sameType, IcebergType.loosen]

theorem sameFields_iff : ∀ fs gs : IcebergFields, sameFields fs gs = true ↔ fs.loosen = gs.loosen
  | .nil, .nil => by simp [sameFields]
  | .cons n _ t fs, .cons m _ u gs => by
    simp [sameFields, IcebergFields.loosen, sameType_iff t u, sameFields_iff fs gs, and_assoc]
  | .nil, .cons .. | .cons .., .nil => by simp [sameFields, IcebergFields.loosen]

end

mutual

/-- A type is what is left of it and its flags, which say themselves where they end. -/
theorem IcebergType.eq_of_flags : ∀ {a b : IcebergType} {s t : List Bool}, a.loosen = b.loosen →
    a.flags ++ s = b.flags ++ t → a = b ∧ s = t
  | .primitive _, .primitive _, _, _, h, hflags => ⟨h, hflags⟩
  | .list r x, .list s y, _, _, h, hflags => by
    obtain ⟨rfl, helement⟩ := IcebergType.list.inj h
    have hflags : x.flags ++ _ = y.flags ++ _ := hflags
    obtain ⟨rfl, hrest⟩ := IcebergType.eq_of_flags helement hflags
    exact ⟨rfl, hrest⟩
  | .map _ _ _, .map _ _ _, _, _, h, hflags => by
    obtain ⟨hkey, -, hvalue⟩ := IcebergType.map.inj h
    simp only [IcebergType.flags, List.cons_append, List.append_assoc] at hflags
    obtain ⟨rfl, hkeys⟩ := List.cons.inj hflags
    obtain ⟨rfl, hvalues⟩ := IcebergType.eq_of_flags hkey hkeys
    obtain ⟨rfl, hrest⟩ := IcebergType.eq_of_flags hvalue hvalues
    exact ⟨rfl, hrest⟩
  | .struct fs, .struct gs, _, _, h, hflags => by
    have hflags : fs.flags ++ _ = gs.flags ++ _ := hflags
    obtain ⟨rfl, hrest⟩ := IcebergFields.eq_of_flags (IcebergType.struct.inj h) hflags
    exact ⟨rfl, hrest⟩

theorem IcebergFields.eq_of_flags : ∀ {fs gs : IcebergFields} {s t : List Bool}, fs.loosen = gs.loosen →
    fs.flags ++ s = gs.flags ++ t → fs = gs ∧ s = t
  | .nil, .nil, _, _, _, hflags => ⟨rfl, hflags⟩
  | .cons _ _ _ _, .cons _ _ _ _, _, _, h, hflags => by
    obtain ⟨rfl, -, htype, hfields⟩ := IcebergFields.cons.inj h
    simp only [IcebergFields.flags, List.cons_append, List.append_assoc] at hflags
    obtain ⟨rfl, htypes⟩ := List.cons.inj hflags
    obtain ⟨rfl, hothers⟩ := IcebergType.eq_of_flags htype htypes
    obtain ⟨rfl, hrest⟩ := IcebergFields.eq_of_flags hfields hothers
    exact ⟨rfl, hrest⟩

end

theorem IcebergType.eq_iff {a b : IcebergType} : a = b ↔ a.loosen = b.loosen ∧ a.flags = b.flags := by
  constructor
  · rintro rfl
    exact ⟨rfl, rfl⟩
  · rintro ⟨hloosen, hflags⟩
    exact (IcebergType.eq_of_flags (s := []) (t := []) hloosen (by rw [hflags])).1

/-! ## Equality up to ids -/

/-- Types that differ in nothing but ids and the flags of struct fields and map values have these flags alike. -/
def FlagsAgree (a b : NestedType) : Prop := a.erase.loosen = b.erase.loosen → a.erase.flags = b.erase.flags

/-- Of two types `same_type` is equality up to ids exactly when their flags agree; it is an equivalence on all. -/
theorem same_up_to_ids_iff (a b : NestedType) : ((a.same b = true ↔ a.erase = b.erase) ↔ FlagsAgree a b) ∧
    Equivalence fun a b : NestedType => a.same b = true := by
  have hsame : ∀ a b : NestedType, a.same b = true ↔ a.erase.loosen = b.erase.loosen := by
    intro a b
    rw [NestedType.same_eq, sameType_iff]
  refine ⟨?_, fun a => (hsame a a).2 rfl, fun {a b} h => ?_, fun {a b c} h h' => ?_⟩
  · have heq : a.erase = b.erase ↔ a.erase.loosen = b.erase.loosen ∧ a.erase.flags = b.erase.flags := IcebergType.eq_iff
    rw [hsame, heq, FlagsAgree]
    tauto
  · exact (hsame b a).2 ((hsame a b).1 h).symm
  · exact (hsame a c).2 (((hsame a b).1 h).trans ((hsame b c).1 h'))

/-- A struct whose field is required is the same type as one whose field is not. -/
theorem required_field_passed_over : ¬ ∀ a b : NestedType, a.same b = true ↔ a.erase = b.erase := by
  intro h
  have hsame := (h (.struct (.cons 2 "x" true (.primitive "int") .nil))
    (.struct (.cons 2 "x" false (.primitive "int") .nil))).1 rfl
  simp [NestedType.erase, NestedFields.erase] at hsame

end Peql
