import Peql.Engine.References
import Peql.Lib.Debug
import Peql.Vector.Expand

/-!
# What a vector search reads

A statement that is prepared is planned over its expansion (`Expanded`), the views registered for its references and the
functions registered for its searches. In the scope a search stands in, the table its query names is no CTE of any WITH
around it: it is a contract resolved for the caller, and the name refers to that contract's view (`RanksView`). The
function its query calls is registered once, with the search's own vector and metric and the type of its own column.
-/

namespace Peql

open Effects

/-- What a name in a FROM refers to. -/
inductive FromTarget
  | cte
  | view (plan : Plan)

/-- The CTEs around a place come before the views that are registered. -/
def fromTarget (scope : List String) (views : List (TableRef × Plan)) (name : String) : Option FromTarget :=
  if name ∈ scope then some .cte else (views.lookup ⟨none, name⟩).map .view

section Statement

variable (R : Runtime) (caller : Caller) (asOf : AsOf) (onViolation : OnReadViolation)

/-- A contract as it was resolved for the caller, and its view under that resolution. -/
def ViewedFor (r : Resolution) (view : Plan) : Prop :=
  ∃ n manifest m rows k, resolveAt R r.contract caller onViolation
      ((asOf.lookup r.contract).or (n.engine.frozen.lookup r.contract)) n = .ok (r, manifest) m ∧
    contractViewFor R r.contract caller r m = .ok (view, rows) k

/-- What the query of a search reads and ranks by, where the WITHs around it define these names. -/
structure RanksView (done : Resolved) (udfs : List VectorUdf) (scope : List String) (f : String) (c : SearchCall) :
    Prop where
  /-- Its FROM refers to the view of a contract the caller was resolved for. -/
  reads : ∃ r ∈ done.resolutions, ∃ view, r.contract = c.table ∧
    fromTarget scope done.views c.table = some (.view view) ∧ ViewedFor R caller asOf onViolation r view
  /-- Its function is registered once, for its own column, vector and metric. -/
  ranks : ∃ schema field n m, describeFor R c.table caller n = .ok schema m ∧
    schema.find? (fun d => d.name = c.column) = some field ∧ ⟨f, field.ty, c.vector, c.metric⟩ ∈ udfs ∧
    ∀ u ∈ udfs, u.name = f → u = ⟨f, field.ty, c.vector, c.metric⟩

/-- A statement was planned as `q'`, over the views and the functions registered for it. -/
structure PlannedAs (sql : String) (q q' : SqlTree) (done : Resolved) (udfs : List VectorUdf) (n : Node)
    (p : Prepared) :
    Prop where
  planned : ∃ text searches refs k plan, R.expand sql = .ok (text, searches) ∧
    (text = R.sqlParser.print q' ∨ text = sql ∧ q' = q) ∧ R.references text = .ok refs ∧
    resolveReferences R caller asOf onViolation refs .none n = .ok done k ∧
    R.logicalPlan text done.views udfs = .ok plan
  resolutions : p.resolutions = done.resolutions

end Statement

variable {R : Runtime} {caller : Caller} {asOf : AsOf} {onViolation : OnReadViolation}

/-! ## The views of a statement -/

/-- A reference resolved by itself registers the view of its contract. -/
theorem viewed_of_resolved {t : TableRef} {one : Resolved} {n k : Node} (hbare : t.qualifier = none)
    (h : resolveReference R caller asOf onViolation t .none n = .ok one k) :
    ∃ r view, one.resolutions = [r] ∧ one.views = [(⟨none, r.contract⟩, view)] ∧
      ViewedFor R caller asOf onViolation r view := by
  unfold resolveReference at h
  dsimp only at h
  rw [if_neg (none_any t.table), if_neg (not_qualified hbare)] at h
  obtain ⟨reg, hreg, h⟩ := Ask.engine_bind_ok.1 h
  obtain ⟨frozen, hfrozen, h⟩ := Ask.engine_bind_ok.1 h
  cases hfrozen
  obtain ⟨⟨r, manifest⟩, k', hat, h⟩ := Effects.bind_eq_ok.1 h
  obtain ⟨⟨view, rows⟩, k'', hview, h⟩ := Effects.bind_eq_ok.1 h
  obtain ⟨_, _, h⟩ := Ask.engine_bind_ok.1 h
  obtain ⟨_, _, h⟩ := Effects.ofExcept_bind_ok.1 h
  obtain ⟨_, _, h⟩ := Effects.ofExcept_bind_ok.1 h
  cases h
  obtain ⟨qualifier, table⟩ := t
  obtain rfl : qualifier = none := hbare
  obtain rfl : r.contract = table := resolveAt_contract hat
  exact ⟨r, view, rfl, rfl, n, manifest, k', rows, _, hat, hview⟩

/-- Every contract resolved has its view among those registered. -/
theorem PassesAll.viewed {n m : Node} {refs : List TableRef} {done : Resolved}
    (h : PassesAll R caller asOf onViolation n refs done m) :
    ∀ r ∈ done.resolutions, ∃ view, (⟨none, r.contract⟩, view) ∈ done.views ∧
      ViewedFor R caller asOf onViolation r view := by
  induction h with
  | start => simp [Resolved.none]
  | @first refs done one t m k h hbare hnew hone ih =>
    obtain ⟨r, view, hr, hview, hviewed⟩ := viewed_of_resolved hbare hone
    show ∀ r ∈ done.resolutions ++ one.resolutions, ∃ view, _ ∈ done.views ++ one.views ∧ _
    rw [hr, hview, List.forall_mem_append, List.forall_mem_singleton]
    refine ⟨fun r' hr' => ?_, view, by simp, hviewed⟩
    obtain ⟨view', hmem, hviewed'⟩ := ih r' hr'
    exact ⟨view', List.mem_append_left _ hmem, hviewed'⟩
  | again _ _ _ ih => exact ih

/-- What the loop resolves is what it resolves of the bare references; a qualified one it passes over adds nothing. -/
theorem passes_of_resolved {n m : Node} {refs : List TableRef} {done : Resolved}
    (h : resolveReferences R caller asOf onViolation refs .none n = .ok done m) :
    ∃ bare, PassesAll R caller asOf onViolation n bare done m := by
  induction refs using List.reverseRecOn generalizing done m with
  | nil =>
    cases h
    exact ⟨[], .start⟩
  | append_singleton refs t ih =>
    rw [resolveReferences_append] at h
    obtain ⟨before, k, hbefore, h⟩ := Effects.bind_eq_ok.1 h
    obtain ⟨bare, hbare⟩ := ih hbefore
    unfold resolveReferences at h
    obtain ⟨after, k', ht, h⟩ := Effects.bind_eq_ok.1 h
    cases h
    by_cases hseen : before.Has t.table
    · rw [resolveReference_seen hseen] at ht
      cases ht
      exact ⟨bare, hbare⟩
    · cases hqualifier : t.qualifier with
      | some q =>
        rw [resolveReference_qualified hseen (by rw [hqualifier]; rfl)] at ht
        cases ht
      | none =>
        rw [resolveReference_new hseen hqualifier, map_eq_pure_bind] at ht
        obtain ⟨one, k'', hone, ht⟩ := Effects.bind_eq_ok.1 ht
        cases ht
        exact ⟨bare ++ [t], .first hbare hqualifier hseen hone⟩

/-- Outside the CTEs, the name of a contract resolved refers to its view. -/
theorem fromTarget_of_resolved {n m : Node} {refs : List TableRef} {done : Resolved} {r : Resolution}
    {scope : List String} (h : resolveReferences R caller asOf onViolation refs .none n = .ok done m)
    (hr : r ∈ done.resolutions) (hscope : r.contract ∉ scope) :
    ∃ view, fromTarget scope done.views r.contract = some (.view view) ∧
      ViewedFor R caller asOf onViolation r view := by
  obtain ⟨bare, hpasses⟩ := passes_of_resolved h
  obtain ⟨view, hmem, hviewed⟩ := hpasses.viewed r hr
  have hadmitted := hpasses.admitted
  have hkeys : (done.views.map Prod.fst).Nodup := by
    have hmap : done.resolutions.map (fun r => (⟨none, r.contract⟩ : TableRef)) =
        (done.resolutions.map Resolution.contract).map fun c => ⟨none, c⟩ := by
      rw [List.map_map]
      rfl
    rw [hadmitted.views, hmap]
    exact hadmitted.once.map fun a b hab => congrArg TableRef.table hab
  refine ⟨view, ?_, hviewed⟩
  unfold fromTarget
  rw [if_neg hscope, Lookup.lookup_of_mem hkeys hmem]
  rfl

/-! ## The functions of its searches -/

theorem udf_ok {fixedSizeList : String → Option (String × Int)} {s : Search} {schema : List ColumnDef} {u : VectorUdf}
    (h : s.udf fixedSizeList schema = .ok u) :
    ∃ field, schema.find? (fun d => d.name = s.column) = some field ∧
      u = ⟨s.function, field.ty, s.vector, s.metric⟩ := by
  unfold Search.udf at h
  split at h
  · cases h
  split at h
  · cases h
  next field hfield =>
    split at h
    · cases h
    split at h
    · cases h
    split at h
    · cases h
    cases h
    exact ⟨field, hfield, rfl⟩

/-- The functions made, one for each search, each over what its table exposes to the caller. -/
theorem searchFunctions_ok {resolutions : List Resolution} {searches : List Search} {udfs : List VectorUdf} {n m : Node}
    (h : searchFunctions R caller resolutions searches n = .ok udfs m) :
    (∀ s ∈ searches, (∃ r ∈ resolutions, r.contract = s.table) ∧ ∃ u ∈ udfs, ∃ schema k k',
      describeFor R s.table caller k = .ok schema k' ∧ s.udf R.fixedSizeList schema = .ok u) ∧
    udfs.map VectorUdf.name = searches.map Search.function := by
  induction searches generalizing udfs n with
  | nil =>
    cases h
    exact ⟨by simp, rfl⟩
  | cons s rest ih =>
    unfold searchFunctions at h
    split at h
    · next hresolved =>
      obtain ⟨schema, k, hschema, h⟩ := Effects.bind_eq_ok.1 h
      obtain ⟨u, hu, h⟩ := Effects.ofExcept_bind_ok.1 h
      obtain ⟨us, k', hus, h⟩ := Effects.bind_eq_ok.1 h
      cases h
      obtain ⟨hmade, hnames⟩ := ih hus
      refine ⟨List.forall_mem_cons.2
        ⟨⟨by simpa using hresolved, u, List.mem_cons_self, schema, n, k, hschema, hu⟩, ?_⟩, ?_⟩
      · intro s' hs'
        obtain ⟨hr, u', hu', hmade'⟩ := hmade s' hs'
        exact ⟨hr, u', List.mem_cons_of_mem _ hu', hmade'⟩
      · obtain ⟨field, -, rfl⟩ := udf_ok hu
        rw [List.map_cons, List.map_cons, hnames]
    · cases h

theorem distanceFunction_inj {n m : Nat} (h : distanceFunction n = distanceFunction m) : n = m := by
  unfold distanceFunction at h
  exact Debug.repr_inj (by simpa using h)

/-- Searches are numbered on. -/
theorem function_of_mem {s : Search} : ∀ {cs : List SearchCall} {n : Nat}, s ∈ searchesFrom n cs →
    ∃ i, n ≤ i ∧ s.function = distanceFunction i
  | _ :: cs, n, h => by
    rcases List.mem_cons.1 h with rfl | h
    · exact ⟨n, le_rfl, rfl⟩
    · obtain ⟨i, hi, hfunction⟩ := function_of_mem h
      exact ⟨i, by omega, hfunction⟩

theorem functions_nodup (cs : List SearchCall) : ∀ n, ((searchesFrom n cs).map Search.function).Nodup := by
  induction cs with
  | nil => exact fun _ => List.nodup_nil
  | cons c cs ih =>
    intro n
    refine List.nodup_cons.2 ⟨fun hmem => ?_, ih (n + 1)⟩
    obtain ⟨s, hs, heq⟩ := List.mem_map.1 hmem
    obtain ⟨i, hi, hfunction⟩ := function_of_mem hs
    have hn : i = n := distanceFunction_inj (hfunction.symm.trans heq)
    omega

/-! ## What is prepared -/

/-- A vector search reads a contract's view and nothing else, and ranks by a function of its own; the statement is
otherwise as it was. -/
theorem search_reads_view {sql : String} {q : SqlTree} {n m : Node} {p : Prepared}
    (hparse : R.sqlParser.parseSql sql = .ok [q])
    (hreads : Numbered R.sqlParser.Reads 0 (q.calls R.sqlParser R.floats))
    (h : prepare R sql caller asOf onViolation n = .ok p m) :
    ∃ q' done udfs, PlannedAs R caller asOf onViolation sql q q' done udfs n p ∧
      Expanded R.sqlParser R.floats (RanksView R caller asOf onViolation done udfs) [] q q' := by
  unfold prepare at h
  obtain ⟨_, _, h⟩ := ofExcept_bind_ok.1 h
  obtain ⟨⟨text, searches⟩, hexpand, h⟩ := ofExcept_bind_ok.1 h
  obtain ⟨refs, hrefs, h⟩ := ofExcept_bind_ok.1 h
  obtain ⟨done, k, hdone, h⟩ := Effects.bind_eq_ok.1 h
  obtain ⟨_, _, h⟩ := ofExcept_bind_ok.1 h
  obtain ⟨udfs, k', hudfs, h⟩ := Effects.bind_eq_ok.1 h
  obtain ⟨plan, hplan, h⟩ := ofExcept_bind_ok.1 h
  obtain ⟨_, _, h⟩ := ofExcept_bind_ok.1 h
  obtain ⟨_, _, h⟩ := ofExcept_bind_ok.1 h
  obtain ⟨_, _, h⟩ := ofExcept_bind_ok.1 h
  cases h
  obtain ⟨q', htext, rfl, hunshadowed, hexpanded⟩ := expand_spec hparse hreads hexpand
  refine ⟨q', done, udfs, ⟨⟨text, _, refs, k, plan, hexpand, htext, hrefs, hdone, hplan⟩, rfl⟩,
    hexpanded _ _ fun i c hi around haround => ?_⟩
  have hmem := mem_searchesFrom (n := 0) hi
  have hfunctions := searchFunctions_ok hudfs
  obtain ⟨⟨r, hr, hcontract⟩, u, hu, schema, k₁, k₂, hschema, hudf⟩ := hfunctions.1 _ hmem
  obtain ⟨field, hfield, rfl⟩ := udf_ok hudf
  change r.contract = c.table at hcontract
  refine ⟨?_, schema, field, k₁, k₂, hschema, hfield, hu, fun u' hu' hname => ?_⟩
  · -- a name around the call is the name of some CTE, which is not the table's
    have hscope : r.contract ∉ around := by
      rw [hcontract]
      intro hmem
      rcases haround _ hmem with hnil | hcte
      · cases hnil
      · exact hunshadowed c (List.mem_of_getElem? hi) _ hcte rfl
    obtain ⟨view, htarget, hviewed⟩ := fromTarget_of_resolved hdone hr hscope
    exact ⟨r, hr, view, hcontract, hcontract ▸ htarget, hviewed⟩
  · have hnodup : (udfs.map VectorUdf.name).Nodup := by
      rw [hfunctions.2]
      exact functions_nodup _ 0
    exact List.inj_on_of_nodup_map hnodup hu' hu hname

/-! ## A search inside a CTE -/

def nearestSql : String :=
  "WITH nearest AS (SELECT * FROM vector_search('acme/amounts', 'embedding', [1, 0], 1, 'cosine')) SELECT amount FROM nearest"

def nearestQuery : SqlTree :=
  .query false
    [.cte ⟨⟨"nearest", none⟩, []⟩ (.query false []
      [.node "Select" [.node "Wildcard" [],
        .tableFunction [⟨"vector_search", none⟩]
          [.string "acme/amounts", .string "embedding", .array [.number "1", .number "0"] false, .number "1",
            .string "cosine"] none []]])]
    [.node "Select" [.identifier ⟨"amount", none⟩, .table [⟨"nearest", none⟩] none []]]

/-- The vector by its singles: one and zero. -/
def nearestCall : SearchCall := ⟨"acme/amounts", "embedding", [0x3f800000, 0], 1, .cosine⟩

def nearestParser : SqlParser where
  parseSql text :=
    if text = nearestSql then .ok [nearestQuery]
    else if text = searchText (distanceFunction 0) nearestCall then .ok [searchQuery (distanceFunction 0) nearestCall]
    else .error "sql parser error"
  print _ := "WITH nearest AS (SELECT * FROM (" ++ searchText (distanceFunction 0) nearestCall ++
    ")) SELECT amount FROM nearest"
  printName name := ".".intercalate (name.map Ident.value)

def nearestFloats : Floats where
  parse text := if text = "1" then some 0x3ff0000000000000 else if text = "0" then some 0 else none
  narrow bits := if bits = 0x3ff0000000000000 then 0x3f800000 else 0

def nearestRuntime : Runtime :=
  { amountsRuntime with
    sqlParser := nearestParser
    floats := nearestFloats
    references := fun _ => .ok [⟨none, "acme/amounts"⟩]
    fixedSizeList := fun ty => if ty = "FixedSizeList(2 x Float32)" then some ("Float32", 2) else none }

/-- The amounts, with a vector beside each. -/
def embeddedContract : Compilation :=
  { amountContract with
    contract := { amountContract.contract with
      projection := amountContract.contract.projection ++ [("embedding", .column "embedding")]
      exposedSchema := amountContract.contract.exposedSchema ++ [⟨"embedding", "FixedSizeList(2 x Float32)", true⟩] } }

def oneEmbedded : Node :=
  { oneAmount with engine := { oneAmount.engine with store := Contents.empty.put ⟨embeddedContract⟩ } }

theorem nearest_parsed : nearestParser.parseSql nearestSql = .ok [nearestQuery] := by
  unfold nearestParser
  dsimp only
  rw [if_pos rfl]

theorem nearest_read : nearestParser.Reads 0 nearestCall := by
  have hother : searchText (distanceFunction 0) nearestCall ≠ nearestSql := by decide +kernel
  unfold SqlParser.Reads nearestParser
  dsimp only
  rw [if_neg hother, if_pos rfl]

theorem search_reads_nearest : ∃ p m, prepare nearestRuntime nearestSql ann [] .exclude oneEmbedded = .ok p m ∧
    ∃ q' done udfs, PlannedAs nearestRuntime ann [] .exclude nearestSql nearestQuery q' done udfs oneEmbedded p ∧
      Expanded nearestParser nearestFloats (RanksView nearestRuntime ann [] .exclude done udfs) [] nearestQuery q' := by
  have hcalls : nearestQuery.calls nearestParser nearestFloats = [nearestCall] := by decide +kernel
  have hreads : Numbered nearestParser.Reads 0 (nearestQuery.calls nearestParser nearestFloats) := by
    rw [hcalls]
    rintro (_ | i) c hi
    · obtain rfl : nearestCall = c := by simpa using hi
      exact nearest_read
    · simp at hi
  cases hrun : prepare nearestRuntime nearestSql ann [] .exclude oneEmbedded with
  | ok p m => exact ⟨p, m, rfl, search_reads_view nearest_parsed hreads hrun⟩
  | error e m =>
    have hok : (Effects.outcome (prepare nearestRuntime nearestSql ann [] .exclude) oneEmbedded).isOk = true := by
      decide +kernel
    unfold Effects.outcome at hok
    rw [hrun] at hok
    cases hok

end Peql
