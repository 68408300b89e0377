import Peql.Error
import Peql.Parcel

/-!
# A table's columns, and those a contract writes

A write adds the columns of its contract that the table lacks and takes none away (`schemaChange`). A column the table
has already is left as it is when its type is the contract's up to what `sameType` compares, and refused otherwise. A
type stands in a schema as its text; the type a text stands for is a parameter, as are the schemas the crate cannot
convert and the columns parcel scans.
-/

namespace Peql

/-! ## Types -/

mutual

/-- An Iceberg type, without the ids of its nested fields. -/
inductive IcebergType
  | primitive (name : String)
  | list (required : Bool) (element : IcebergType)
  | map (key : IcebergType) (required : Bool) (value : IcebergType)
  | struct (fields : IcebergFields)

inductive IcebergFields
  | nil
  | cons (name : String) (required : Bool) (type : IcebergType) (rest : IcebergFields)

end

mutual

/-- `same_type`: of nested fields a list's says whether it is required. -/
def sameType : IcebergType → IcebergType → Bool
  | .primitive x, .primitive y => x == y
  | .list r x, .list s y => r == s && sameType x y
  | .map k _ v, .map l _ w => sameType k l && sameType v w
  | .struct fs, .struct gs => sameFields fs gs
  | _, _ => false

def sameFields : IcebergFields → IcebergFields → Bool
  | .nil, .nil => true
  | .cons n _ t fs, .cons m _ u gs => n == m && sameType t u && sameFields fs gs
  | _, _ => false

end

mutual

theorem sameType_refl : ∀ t : IcebergType, sameType t t = true
  | .primitive _ => by simp [sameType]
  | .list _ t => by simp [sameType, sameType_refl t]
  | .map k _ v => by simp [sameType, sameType_refl k, sameType_refl v]
  | .struct fs => by simp [sameType, sameFields_refl fs]

theorem sameFields_refl : ∀ fs : IcebergFields, sameFields fs fs = true
  | .nil => rfl
  | .cons _ _ t fs => by simp [sameFields, sameType_refl t, sameFields_refl fs]

end

/-! ## Schemas -/

/-- The crate's schemas: the type a column's text stands for, and what converting two schemas to compare them fails
with, if it does. -/
structure Schemas where
  typeOf : String → IcebergType
  convert : List ColumnDef → List ColumnDef → Option PeqlError

/-- `field_with_name`. -/
def fieldNamed (schema : List ColumnDef) (name : String) : Option ColumnDef := schema.find? fun f => f.name = name

/-- A column that is there stays the one found, whatever comes behind it. -/
theorem fieldNamed_append {schema : List ColumnDef} {name : String} {f : ColumnDef}
    (h : fieldNamed schema name = some f) (more : List ColumnDef) : fieldNamed (schema ++ more) name = some f := by
  unfold fieldNamed at h ⊢
  rw [List.find?_append, h]
  rfl

/-- Every column of a schema is in another as it is. -/
def KeptIn (schema schema' : List ColumnDef) : Prop :=
  ∀ name f, fieldNamed schema name = some f → fieldNamed schema' name = some f

theorem KeptIn.refl (schema : List ColumnDef) : KeptIn schema schema := fun _ _ h => h

theorem KeptIn.trans {a b c : List ColumnDef} (h : KeptIn a b) (h' : KeptIn b c) : KeptIn a c :=
  fun name f hf => h' name f (h name f hf)

theorem KeptIn.append (schema more : List ColumnDef) : KeptIn schema (schema ++ more) :=
  fun _ _ h => fieldNamed_append h more

/-- `table_schema`: what a contract's files hold, of the columns parcel scans. -/
def tableSchema (scanSchema : CompiledContract → List ColumnDef) (cc : CompiledContract) : List ColumnDef :=
  scanSchema cc ++ cc.flags.map (fun f => ⟨f.column, "Boolean", true⟩) ++
    cc.derived.map fun d => { d with nullable := true }

/-- Why a column of another type is refused; `raced` when another writer changed the schema meanwhile. -/
def typeDiffers (table : String) (have_ want : ColumnDef) (raced : Bool) : PeqlError :=
  .invalid (s!"column `{want.name}` of {table} is {have_.ty}; the contract writes {want.ty}" ++
    if raced then " (another writer changed the table's schema meanwhile)" else "")

namespace Schemas

variable (S : Schemas) (table : String)

/-- The columns of `want` a schema lacks, each optional; refused when one it has is of another type. -/
def missing (schema : List ColumnDef) (raced : Bool) : List ColumnDef → Except PeqlError (List ColumnDef)
  | [] => .ok []
  | w :: want =>
    match fieldNamed schema w.name with
    | some h =>
      if sameType (S.typeOf h.ty) (S.typeOf w.ty) then missing schema raced want
      else .error (typeDiffers table h w raced)
    | none => do
      let adds ← missing schema raced want
      .ok ({ w with nullable := true } :: adds)

/-- `schema_change`: the columns to add, or `none` when there is nothing to add. -/
def schemaChange (schema want : List ColumnDef) (raced : Bool) : Except PeqlError (Option (List ColumnDef)) :=
  match S.convert schema want with
  | some e => .error e
  | none =>
    match S.missing table schema raced want with
    | .error e => .error e
    | .ok [] => .ok none
    | .ok (a :: adds) => .ok (some (a :: adds))

/-- Every wanted column is there, with a type that is the same. -/
def Covers (schema want : List ColumnDef) : Prop :=
  ∀ w ∈ want, ∃ h, fieldNamed schema w.name = some h ∧ sameType (S.typeOf h.ty) (S.typeOf w.ty) = true

variable {S table} {schema want : List ColumnDef} {raced : Bool}

theorem missing_cons_of_lacking {w : ColumnDef} (h : fieldNamed schema w.name = none) {adds : List ColumnDef}
    (hm : S.missing table schema raced (w :: want) = .ok adds) :
    ∃ rest, S.missing table schema raced want = .ok rest ∧ adds = { w with nullable := true } :: rest := by
  simp only [missing, h] at hm
  obtain ⟨rest, hrest, hadds⟩ := bind_eq_ok.1 hm
  exact ⟨rest, hrest, (Except.ok.inj hadds).symm⟩

theorem missing_cons_of_having {w f : ColumnDef} (h : fieldNamed schema w.name = some f) {adds : List ColumnDef}
    (hm : S.missing table schema raced (w :: want) = .ok adds) :
    sameType (S.typeOf f.ty) (S.typeOf w.ty) = true ∧ S.missing table schema raced want = .ok adds := by
  simp only [missing, h] at hm
  split at hm
  · next hsame => exact ⟨hsame, hm⟩
  · cases hm

/-- What is added the schema lacks, and it may hold nulls. -/
theorem mem_missing {adds : List ColumnDef} (hm : S.missing table schema raced want = .ok adds) {a : ColumnDef}
    (ha : a ∈ adds) : fieldNamed schema a.name = none ∧ a.nullable = true ∧ a.name ∈ want.map ColumnDef.name := by
  induction want generalizing adds with
  | nil =>
    cases hm
    cases ha
  | cons w want ih =>
    cases hf : fieldNamed schema w.name with
    | some f =>
      obtain ⟨_, hrest⟩ := missing_cons_of_having hf hm
      obtain ⟨hn, hnull, hmem⟩ := ih hrest ha
      exact ⟨hn, hnull, List.mem_cons_of_mem _ hmem⟩
    | none =>
      obtain ⟨rest, hrest, rfl⟩ := missing_cons_of_lacking hf hm
      rcases List.mem_cons.1 ha with rfl | ha
      · exact ⟨hf, rfl, List.mem_cons_self⟩
      · obtain ⟨hn, hnull, hmem⟩ := ih hrest ha
        exact ⟨hn, hnull, List.mem_cons_of_mem _ hmem⟩

/-- A schema with nothing missing has every wanted column. -/
theorem covers_of_missing_nil (hm : S.missing table schema raced want = .ok []) : S.Covers schema want := by
  induction want with
  | nil => intro w hw; cases hw
  | cons v want ih =>
    cases hf : fieldNamed schema v.name with
    | some f =>
      obtain ⟨hsame, hrest⟩ := missing_cons_of_having hf hm
      intro w hw
      rcases List.mem_cons.1 hw with rfl | hw
      · exact ⟨f, hf, hsame⟩
      · exact ih hrest w hw
    | none =>
      obtain ⟨rest, _, hnil⟩ := missing_cons_of_lacking hf hm
      cases hnil

theorem schemaChange_none (h : S.schemaChange table schema want raced = .ok none) : S.Covers schema want := by
  unfold schemaChange at h
  split at h
  · cases h
  · split at h
    · cases h
    · next hm => exact covers_of_missing_nil hm
    · cases h

theorem schemaChange_some {adds : List ColumnDef} (h : S.schemaChange table schema want raced = .ok (some adds)) :
    S.missing table schema raced want = .ok adds := by
  unfold schemaChange at h
  split at h
  · cases h
  · split at h
    · cases h
    · cases h
    · next hm =>
      rw [hm]
      exact congrArg _ (Option.some.inj (Except.ok.inj h))

end Schemas

/-- Every type is primitive, and every schema converts. -/
def plainSchemas : Schemas := ⟨.primitive, fun _ _ => none⟩

end Peql
