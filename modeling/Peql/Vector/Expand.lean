import Peql.Vector
import Peql.Lib.Effects

/-!
# What the expansion is

The visit numbers the calls of a statement in the order it meets them (`SqlTree.calls`) and replaces each by a derived
table, and it does nothing else: what it gives is the statement with its other nodes untouched (`Expanded`), shown of
the visit by `visitWith_spec` and of a statement's text by `expand_spec`. What must hold where a call stood, of the
names the WITHs around it define, is carried to every call.
-/

namespace Peql

/-! ## The subquery of a search -/

/-- The score of a row: the search's function of its column. -/
def searchScore (function : String) (c : SearchCall) : SqlTree :=
  .node "Function" [.identifier ⟨function, none⟩, .identifier ⟨c.column, some '"'⟩]

/-- `searchText` as a statement: its FROM is one table, by its quoted name. -/
def searchQuery (function : String) (c : SearchCall) : SqlTree :=
  .query false []
    [.node "Select"
      [.node "Wildcard" [],
        .node "ExprWithAlias" [searchScore function c, .identifier ⟨"distance", none⟩],
        .table [⟨c.table, some '"'⟩] none [],
        .node "IsNotNull" [searchScore function c]],
      .node "OrderByAsc" [.identifier ⟨"distance", none⟩],
      .node "Limit" [.number (toString c.k)]]

section Calls

variable (P : SqlParser) (F : Floats)

mutual

/-- The vector searches of a statement that can be read, in the order they are met. -/
def SqlTree.calls : SqlTree → List SearchCall
  | .query _ ctes parts => callsAll ctes ++ callsAll parts
  | .cte _ query => query.calls
  | .table _ _ modifiers => callsAll modifiers
  | .tableFunction name args _ modifiers =>
    if isVectorSearch P name then
      match readSearch F args modifiers with
      | .ok c => [c]
      | .error _ => []
    else callsAll args ++ callsAll modifiers
  | .derived _ subquery _ sample => subquery.calls ++ callsAll sample
  | .argument _ parts | .array parts _ | .node _ parts => callsAll parts
  | .unaryOp _ e => e.calls
  | .identifier _ | .number _ | .string _ => []

def callsAll : List SqlTree → List SearchCall
  | [] => []
  | t :: ts => t.calls ++ callsAll ts

end

mutual

/-- The names a statement's WITHs define, at any depth. -/
def SqlTree.cteNames : SqlTree → List String
  | .query _ ctes parts => ctes.filterMap SqlTree.cteName ++ (cteNamesAll ctes ++ cteNamesAll parts)
  | .cte _ query => query.cteNames
  | .table _ _ modifiers => cteNamesAll modifiers
  | .tableFunction name args _ modifiers =>
    -- the arguments of a search go with it
    if isVectorSearch P name then [] else cteNamesAll args ++ cteNamesAll modifiers
  | .derived _ subquery _ sample => subquery.cteNames ++ cteNamesAll sample
  | .argument _ parts | .array parts _ | .node _ parts => cteNamesAll parts
  | .unaryOp _ e => e.cteNames
  | .identifier _ | .number _ | .string _ => []

def cteNamesAll : List SqlTree → List String
  | [] => []
  | t :: ts => t.cteNames ++ cteNamesAll ts

end

/-- The search of a call, the `n`-th of its statement. -/
def SearchCall.search (c : SearchCall) (n : Nat) : Search := ⟨c.table, c.column, c.vector, c.metric, distanceFunction n⟩

/-- The searches of calls, the first of them the `n`-th. -/
def searchesFrom (n : Nat) : List SearchCall → List Search
  | [] => []
  | c :: cs => c.search n :: searchesFrom (n + 1) cs

/-- Something of each of these calls and its number, the first of them the `n`-th. -/
def Numbered (p : Nat → SearchCall → Prop) (n : Nat) (calls : List SearchCall) : Prop :=
  ∀ i c, calls[i]? = some c → p (n + i) c

/-- The parser reads the text of a search as the SELECT it is. -/
def SqlParser.Reads (n : Nat) (c : SearchCall) : Prop :=
  P.parseSql (searchText (distanceFunction n) c) = .ok [searchQuery (distanceFunction n) c]

mutual

/-- A statement with every search replaced by its query, and every other node as it was. Of each call replaced, `ok`
holds of the names that the WITHs around it define, the function of its query, and the call. -/
inductive Expanded (ok : List String → String → SearchCall → Prop) : List String → SqlTree → SqlTree → Prop
  | search {scope name args as_ modifiers f c} (hname : isVectorSearch P name = true)
      (hread : readSearch F args modifiers = .ok c) (hok : ok scope f c) :
      Expanded ok scope (.tableFunction name args as_ modifiers) (.derived false (searchQuery f c) as_ [])
  | tableFunction {scope name args args' as_ modifiers modifiers'} (hname : isVectorSearch P name = false)
      (hargs : ExpandedAll ok scope args args') (hmodifiers : ExpandedAll ok scope modifiers modifiers') :
      Expanded ok scope (.tableFunction name args as_ modifiers) (.tableFunction name args' as_ modifiers')
  | query {scope recursive ctes ctes' parts parts'}
      (hctes : ExpandedAll ok (ctes.filterMap SqlTree.cteName ++ scope) ctes ctes')
      (hparts : ExpandedAll ok (ctes.filterMap SqlTree.cteName ++ scope) parts parts') :
      Expanded ok scope (.query recursive ctes parts) (.query recursive ctes' parts')
  | cte {scope as_ query query'} (hquery : Expanded ok scope query query') :
      Expanded ok scope (.cte as_ query) (.cte as_ query')
  | table {scope name as_ modifiers modifiers'} (hmodifiers : ExpandedAll ok scope modifiers modifiers') :
      Expanded ok scope (.table name as_ modifiers) (.table name as_ modifiers')
  | derived {scope lateral subquery subquery' as_ sample sample'} (hsubquery : Expanded ok scope subquery subquery')
      (hsample : ExpandedAll ok scope sample sample') :
      Expanded ok scope (.derived lateral subquery as_ sample) (.derived lateral subquery' as_ sample')
  | argument {scope kind parts parts'} (hparts : ExpandedAll ok scope parts parts') :
      Expanded ok scope (.argument kind parts) (.argument kind parts')
  | array {scope elem elem' named} (helem : ExpandedAll ok scope elem elem') :
      Expanded ok scope (.array elem named) (.array elem' named)
  | unaryOp {scope op e e'} (he : Expanded ok scope e e') : Expanded ok scope (.unaryOp op e) (.unaryOp op e')
  | node {scope kind parts parts'} (hparts : ExpandedAll ok scope parts parts') :
      Expanded ok scope (.node kind parts) (.node kind parts')
  | identifier {scope i} : Expanded ok scope (.identifier i) (.identifier i)
  | number {scope text} : Expanded ok scope (.number text) (.number text)
  | string {scope text} : Expanded ok scope (.string text) (.string text)

inductive ExpandedAll (ok : List String → String → SearchCall → Prop) :
    List String → List SqlTree → List SqlTree → Prop
  | nil {scope} : ExpandedAll ok scope [] []
  | cons {scope t t' ts ts'} (ht : Expanded ok scope t t') (hts : ExpandedAll ok scope ts ts') :
      ExpandedAll ok scope (t :: ts) (t' :: ts')

end

end Calls

variable {P : SqlParser} {F : Floats}

/-! ## The visit computes the expansion -/

/-- Searches are numbered on. -/
theorem searchesFrom_append (cs cs' : List SearchCall) :
    ∀ n, searchesFrom n (cs ++ cs') = searchesFrom n cs ++ searchesFrom (n + cs.length) cs' := by
  induction cs with
  | nil => exact fun _ => rfl
  | cons c cs ih =>
    intro n
    rw [List.cons_append, searchesFrom, searchesFrom, ih, List.length_cons, List.cons_append]
    congr 3
    omega

theorem length_searchesFrom (cs : List SearchCall) : ∀ n, (searchesFrom n cs).length = cs.length := by
  induction cs with
  | nil => exact fun _ => rfl
  | cons c cs ih => exact fun n => congrArg (· + 1) (ih (n + 1))

/-- What holds of numbered calls holds of each part. -/
theorem Numbered.append {p : Nat → SearchCall → Prop} {n : Nat} {cs cs' : List SearchCall}
    (h : Numbered p n (cs ++ cs')) : Numbered p n cs ∧ Numbered p (n + cs.length) cs' := by
  constructor
  · intro i c hi
    exact h i c (by rw [List.getElem?_append_left (List.getElem?_eq_some_iff.1 hi).1]; exact hi)
  · intro i c hi
    have hget : (cs ++ cs')[cs.length + i]? = some c := by
      rw [List.getElem?_append_right (Nat.le_add_right _ _), Nat.add_sub_cancel_left]
      exact hi
    simpa [Nat.add_assoc] using h (cs.length + i) c hget

/-- It may be weakened. -/
theorem Numbered.mono {p q : Nat → SearchCall → Prop} {n : Nat} {cs : List SearchCall} (h : Numbered p n cs)
    (hpq : ∀ i c, p i c → q i c) : Numbered q n cs :=
  fun i c hi => hpq _ c (h i c hi)

/-- A call may stand anywhere below a scope where no other names than these are defined. -/
def Placed (ok : List String → String → SearchCall → Prop) (scope names : List String) (n : Nat)
    (c : SearchCall) : Prop :=
  ∀ around : List String, (∀ x ∈ around, x ∈ scope ∨ x ∈ names) → ok around (distanceFunction n) c

theorem Placed.mono {ok : List String → String → SearchCall → Prop} {scope scope' names names' : List String} {n : Nat}
    {c : SearchCall} (h : Placed ok scope names n c) (hsub : ∀ x, x ∈ scope' ∨ x ∈ names' → x ∈ scope ∨ x ∈ names) :
    Placed ok scope' names' n c :=
  fun around haround => h around fun x hx => hsub x (haround x hx)

/-- What the visit of some part has gathered more: its searches, numbered on, and the names its WITHs define. -/
def Expand.grown (s : Expand) (cs : List SearchCall) (names : List String) : Expand :=
  ⟨s.searches ++ searchesFrom s.searches.length cs, s.ctes ++ names.map String.toLower⟩

@[simp] theorem Expand.grown_searches (s : Expand) (cs : List SearchCall) (names : List String) :
    (s.grown cs names).searches = s.searches ++ searchesFrom s.searches.length cs := rfl

/-- Growing twice is growing by both. -/
theorem Expand.grown_grown (s : Expand) (cs cs' : List SearchCall) (names names' : List String) :
    (s.grown cs names).grown cs' names' = s.grown (cs ++ cs') (names ++ names') := by
  simp [Expand.grown, searchesFrom_append, length_searchesFrom]

theorem Expand.length_grown (s : Expand) (cs : List SearchCall) (names : List String) :
    (s.grown cs names).searches.length = s.searches.length + cs.length := by
  simp [length_searchesFrom]

@[simp] theorem Expand.grown_nil (s : Expand) : s.grown [] [] = s := by
  simp [Expand.grown, searchesFrom]

theorem Expand.grown_names (s : Expand) (names : List String) :
    s.grown [] names = { s with ctes := s.ctes ++ names.map String.toLower } := by
  simp [Expand.grown, searchesFrom]

section Visit

variable {inner : SqlTree → Expand → Except PeqlError (SqlTree × Expand)}

/-- A call that is read is replaced by its query. -/
theorem expandCall_spec {n : Nat} {args modifiers : List SqlTree} {as_ : Option TableAlias} {factor : SqlTree}
    {search : Search} (h : expandCall P F n args as_ modifiers = .ok (factor, search))
    (hreads : ∀ c, readSearch F args modifiers = .ok c → P.Reads n c) :
    ∃ c, readSearch F args modifiers = .ok c ∧ factor = .derived false (searchQuery (distanceFunction n) c) as_ [] ∧
      search = c.search n := by
  obtain ⟨c, hc, h⟩ := bind_eq_ok.1 h
  have hparse := hreads c hc
  rw [SqlParser.Reads] at hparse
  simp only [hparse, searchQuery] at h
  cases h
  exact ⟨c, hc, rfl, rfl⟩

variable (P F) in
/-- What the visit of a statement does: what it gathers, and what it makes of the statement. -/
structure Visited (s : Expand) (t t' : SqlTree) (s' : Expand) : Prop where
  grown : s' = s.grown (t.calls P F) (t.cteNames P)
  expanded : ∀ ok scope, Numbered (Placed ok scope (t.cteNames P)) s.searches.length (t.calls P F) →
    Expanded P F ok scope t t'

variable (P F) in
structure VisitedAll (s : Expand) (ts ts' : List SqlTree) (s' : Expand) : Prop where
  grown : s' = s.grown (callsAll P F ts) (cteNamesAll P ts)
  expanded : ∀ ok scope, Numbered (Placed ok scope (cteNamesAll P ts)) s.searches.length (callsAll P F ts) →
    ExpandedAll P F ok scope ts ts'

/-- A part visited behind others is placed as it was. -/
theorem placed_of_grown {ok : List String → String → SearchCall → Prop} {scope : List String} {s : Expand}
    {cs cs' : List SearchCall} {names names' : List String}
    (h : Numbered (Placed ok scope (names ++ names')) s.searches.length (cs ++ cs')) :
    Numbered (Placed ok scope names) s.searches.length cs ∧
      Numbered (Placed ok scope names') (s.grown cs names).searches.length cs' := by
  rw [Expand.length_grown]
  refine ⟨h.append.1.mono fun i c hc => hc.mono ?_, h.append.2.mono fun i c hc => hc.mono ?_⟩
  · exact fun x hx => hx.imp_right (List.mem_append_left _)
  · exact fun x hx => hx.imp_right (List.mem_append_right _)

mutual

/-- The visit replaces every call and nothing else, and gathers the searches and the names the WITHs define. -/
theorem visitWith_spec (hinner : ∀ f c s, inner (searchQuery f c) s = .ok (searchQuery f c, s)) :
    ∀ (t : SqlTree) {s s' : Expand} {t' : SqlTree}, visitWith P F inner t s = .ok (t', s') →
      Numbered P.Reads s.searches.length (t.calls P F) → Visited P F s t t' s'
  | .query recursive ctes parts, s, _, _, h, hreads => by
    rw [visitWith] at h
    obtain ⟨⟨ctes', s₁⟩, hctes, h⟩ := bind_eq_ok.1 h
    obtain ⟨⟨parts', s₂⟩, hparts, h⟩ := bind_eq_ok.1 h
    cases h
    obtain ⟨hreadsCtes, hreadsParts⟩ := Numbered.append hreads
    rw [← Expand.grown_names] at hctes
    obtain ⟨rfl, hexpandedCtes⟩ := visitAllWith_spec hinner ctes hctes (by simpa [searchesFrom] using hreadsCtes)
    rw [Expand.grown_grown] at hparts
    obtain ⟨rfl, hexpandedParts⟩ := visitAllWith_spec hinner parts hparts (by rwa [Expand.length_grown])
    refine ⟨by simp [SqlTree.calls, SqlTree.cteNames, Expand.grown_grown], fun ok scope hplaced => ?_⟩
    -- what is placed below the scope is placed below the names this WITH adds to it
    have hbelow :
        Numbered (Placed ok (ctes.filterMap SqlTree.cteName ++ scope) (cteNamesAll P ctes ++ cteNamesAll P parts))
        (s.grown [] (ctes.filterMap SqlTree.cteName)).searches.length (callsAll P F ctes ++ callsAll P F parts) := by
      rw [Expand.length_grown]
      refine Numbered.mono hplaced fun i c hc => hc.mono fun x hx => ?_
      rw [SqlTree.cteNames]
      simp only [List.mem_append] at hx ⊢
      tauto
    obtain ⟨hplacedCtes, hplacedParts⟩ := placed_of_grown hbelow
    rw [Expand.grown_grown] at hplacedParts
    exact .query (hexpandedCtes ok _ hplacedCtes) (hexpandedParts ok _ hplacedParts)
  | .cte as_ query, s, _, _, h, hreads => by
    rw [visitWith] at h
    obtain ⟨⟨query', s₁⟩, hquery, h⟩ := bind_eq_ok.1 h
    cases h
    obtain ⟨rfl, hexpanded⟩ := visitWith_spec hinner query hquery hreads
    exact ⟨rfl, fun ok scope hplaced => .cte (hexpanded ok scope hplaced)⟩
  | .table name as_ modifiers, s, _, _, h, hreads => by
    rw [visitWith] at h
    obtain ⟨⟨modifiers', s₁⟩, hmodifiers, h⟩ := bind_eq_ok.1 h
    cases h
    obtain ⟨rfl, hexpanded⟩ := visitAllWith_spec hinner modifiers hmodifiers hreads
    exact ⟨rfl, fun ok scope hplaced => .table (hexpanded ok scope hplaced)⟩
  | .tableFunction name args as_ modifiers, s, _, _, h, hreads => by
    rw [visitWith] at h
    rw [SqlTree.calls] at hreads
    by_cases hname : isVectorSearch P name = true
    · rw [if_pos hname] at h hreads
      obtain ⟨⟨factor, search⟩, hcall, h⟩ := bind_eq_ok.1 h
      obtain ⟨c, hread, rfl, rfl⟩ := expandCall_spec hcall fun c hc => by
        rw [hc] at hreads
        exact hreads 0 c rfl
      obtain ⟨⟨subquery, s₁⟩, hsubquery, h⟩ := bind_eq_ok.1 h
      rw [hinner] at hsubquery
      cases hsubquery
      cases h
      have hcalls : (SqlTree.tableFunction name args as_ modifiers).calls P F = [c] := by
        simp [SqlTree.calls, hname, hread]
      refine ⟨by simp [hcalls, SqlTree.cteNames, hname, Expand.grown, searchesFrom], fun ok scope hplaced => ?_⟩
      rw [hcalls] at hplaced
      exact .search hname hread (hplaced 0 c rfl scope fun x hx => .inl hx)
    · rw [if_neg hname] at h hreads
      obtain ⟨⟨args', s₁⟩, hargs, h⟩ := bind_eq_ok.1 h
      obtain ⟨⟨modifiers', s₂⟩, hmodifiers, h⟩ := bind_eq_ok.1 h
      cases h
      obtain ⟨hreadsArgs, hreadsModifiers⟩ := Numbered.append hreads
      obtain ⟨rfl, hexpandedArgs⟩ := visitAllWith_spec hinner args hargs hreadsArgs
      obtain ⟨rfl, hexpandedModifiers⟩ := visitAllWith_spec hinner modifiers hmodifiers (by rwa [Expand.length_grown])
      refine ⟨by simp [SqlTree.calls, SqlTree.cteNames, hname, Expand.grown_grown], fun ok scope hplaced => ?_⟩
      rw [SqlTree.calls, SqlTree.cteNames, if_neg hname, if_neg hname] at hplaced
      obtain ⟨hplacedArgs, hplacedModifiers⟩ := placed_of_grown hplaced
      exact .tableFunction (Bool.eq_false_iff.2 hname) (hexpandedArgs ok scope hplacedArgs)
        (hexpandedModifiers ok scope hplacedModifiers)
  | .derived lateral subquery as_ sample, s, _, _, h, hreads => by
    rw [visitWith] at h
    obtain ⟨⟨subquery', s₁⟩, hsubquery, h⟩ := bind_eq_ok.1 h
    obtain ⟨⟨sample', s₂⟩, hsample, h⟩ := bind_eq_ok.1 h
    cases h
    obtain ⟨hreadsSubquery, hreadsSample⟩ := Numbered.append hreads
    obtain ⟨rfl, hexpandedSubquery⟩ := visitWith_spec hinner subquery hsubquery hreadsSubquery
    obtain ⟨rfl, hexpandedSample⟩ := visitAllWith_spec hinner sample hsample (by rwa [Expand.length_grown])
    refine ⟨by rw [Expand.grown_grown]; rfl, fun ok scope hplaced => ?_⟩
    obtain ⟨hplacedSubquery, hplacedSample⟩ := placed_of_grown hplaced
    exact .derived (hexpandedSubquery ok scope hplacedSubquery) (hexpandedSample ok scope hplacedSample)
  | .argument kind parts, s, _, _, h, hreads => by
    rw [visitWith] at h
    obtain ⟨⟨parts', s₁⟩, hparts, h⟩ := bind_eq_ok.1 h
    cases h
    obtain ⟨rfl, hexpanded⟩ := visitAllWith_spec hinner parts hparts hreads
    exact ⟨rfl, fun ok scope hplaced => .argument (hexpanded ok scope hplaced)⟩
  | .array elem named, s, _, _, h, hreads => by
    rw [visitWith] at h
    obtain ⟨⟨elem', s₁⟩, helem, h⟩ := bind_eq_ok.1 h
    cases h
    obtain ⟨rfl, hexpanded⟩ := visitAllWith_spec hinner elem helem hreads
    exact ⟨rfl, fun ok scope hplaced => .array (hexpanded ok scope hplaced)⟩
  | .unaryOp op e, s, _, _, h, hreads => by
    rw [visitWith] at h
    obtain ⟨⟨e', s₁⟩, he, h⟩ := bind_eq_ok.1 h
    cases h
    obtain ⟨rfl, hexpanded⟩ := visitWith_spec hinner e he hreads
    exact ⟨rfl, fun ok scope hplaced => .unaryOp (hexpanded ok scope hplaced)⟩
  | .node kind parts, s, _, _, h, hreads => by
    rw [visitWith] at h
    obtain ⟨⟨parts', s₁⟩, hparts, h⟩ := bind_eq_ok.1 h
    cases h
    obtain ⟨rfl, hexpanded⟩ := visitAllWith_spec hinner parts hparts hreads
    exact ⟨rfl, fun ok scope hplaced => .node (hexpanded ok scope hplaced)⟩
  | .identifier i, s, _, _, h, _ => by
    cases h
    exact ⟨s.grown_nil.symm, fun _ _ _ => .identifier⟩
  | .number text, s, _, _, h, _ => by
    cases h
    exact ⟨s.grown_nil.symm, fun _ _ _ => .number⟩
  | .string text, s, _, _, h, _ => by
    cases h
    exact ⟨s.grown_nil.symm, fun _ _ _ => .string⟩

/-- A list of trees is expanded one after another. -/
theorem visitAllWith_spec (hinner : ∀ f c s, inner (searchQuery f c) s = .ok (searchQuery f c, s)) :
    ∀ (ts : List SqlTree) {s s' : Expand} {ts' : List SqlTree}, visitAllWith P F inner ts s = .ok (ts', s') →
      Numbered P.Reads s.searches.length (callsAll P F ts) → VisitedAll P F s ts ts' s'
  | [], s, _, _, h, _ => by
    cases h
    exact ⟨s.grown_nil.symm, fun _ _ _ => .nil⟩
  | t :: ts, s, _, _, h, hreads => by
    rw [visitAllWith] at h
    obtain ⟨⟨t', s₁⟩, ht, h⟩ := bind_eq_ok.1 h
    obtain ⟨⟨ts', s₂⟩, hts, h⟩ := bind_eq_ok.1 h
    cases h
    obtain ⟨hreadsHead, hreadsTail⟩ := Numbered.append hreads
    obtain ⟨rfl, hexpandedHead⟩ := visitWith_spec hinner t ht hreadsHead
    obtain ⟨rfl, hexpandedTail⟩ := visitAllWith_spec hinner ts hts (by rwa [Expand.length_grown])
    refine ⟨by rw [Expand.grown_grown]; rfl, fun ok scope hplaced => ?_⟩
    obtain ⟨hplacedHead, hplacedTail⟩ := placed_of_grown hplaced
    exact .cons (hexpandedHead ok scope hplacedHead) (hexpandedTail ok scope hplacedTail)

end

end Visit

/-- The query a call becomes has no call in it, and the visit of it changes nothing. -/
theorem visitInner_searchQuery (f : String) (c : SearchCall) (s : Expand) :
    visitInner P F (searchQuery f c) s = .ok (searchQuery f c, s) := by
  simp [visitInner, searchQuery, searchScore, visitWith, visitAllWith]
  rfl

mutual

/-- A statement without a search is itself. -/
theorem eq_of_expanded {ok : List String → String → SearchCall → Prop} : ∀ {scope : List String} {t t' : SqlTree},
    Expanded P F ok scope t t' → t.calls P F = [] → t' = t
  | _, _, _, .search hname hread _, h => by simp [SqlTree.calls, hname, hread] at h
  | _, _, _, .tableFunction hname hargs hmodifiers, h => by
    rw [SqlTree.calls, hname, if_neg Bool.false_ne_true, List.append_eq_nil_iff] at h
    rw [eq_of_expandedAll hargs h.1, eq_of_expandedAll hmodifiers h.2]
  | _, _, _, .query hctes hparts, h => by
    rw [SqlTree.calls, List.append_eq_nil_iff] at h
    rw [eq_of_expandedAll hctes h.1, eq_of_expandedAll hparts h.2]
  | _, _, _, .cte hquery, h => by rw [eq_of_expanded hquery h]
  | _, _, _, .table hmodifiers, h => by rw [eq_of_expandedAll hmodifiers h]
  | _, _, _, .derived hsubquery hsample, h => by
    rw [SqlTree.calls, List.append_eq_nil_iff] at h
    rw [eq_of_expanded hsubquery h.1, eq_of_expandedAll hsample h.2]
  | _, _, _, .argument hparts, h | _, _, _, .node hparts, h => by rw [eq_of_expandedAll hparts h]
  | _, _, _, .array helem, h => by rw [eq_of_expandedAll helem h]
  | _, _, _, .unaryOp he, h => by rw [eq_of_expanded he h]
  | _, _, _, .identifier, _ | _, _, _, .number, _ | _, _, _, .string, _ => rfl

/-- Trees without calls are left as they are. -/
theorem eq_of_expandedAll {ok : List String → String → SearchCall → Prop} : ∀ {scope : List String}
    {ts ts' : List SqlTree}, ExpandedAll P F ok scope ts ts' → callsAll P F ts = [] → ts' = ts
  | _, _, _, .nil, _ => rfl
  | _, _, _, .cons ht hts, h => by
    rw [callsAll, List.append_eq_nil_iff] at h
    rw [eq_of_expanded ht h.1, eq_of_expandedAll hts h.2]

end

/-! ## What `expand` gives -/

variable (P F) in
/-- The text `expand` gives for a statement `q`, as a statement `q'`, and the searches. -/
structure Expansion (sql : String) (q : SqlTree) (text : String) (searches : List Search) (q' : SqlTree) : Prop where
  /-- The text is the rewritten statement's; without a search it is the text as it was. -/
  text : text = P.print q' ∨ text = sql ∧ q' = q
  searches : searches = searchesFrom 0 (q.calls P F)
  /-- No CTE of the statement has a searched table's name, in any case. -/
  unshadowed : ∀ c ∈ q.calls P F, ∀ name ∈ q.cteNames P, name.toLower ≠ c.table.toLower
  expanded : ∀ ok scope, Numbered (Placed ok scope (q.cteNames P)) 0 (q.calls P F) → Expanded P F ok scope q q'

theorem mem_searchesFrom {c : SearchCall} : ∀ {cs : List SearchCall} {n i : Nat}, cs[i]? = some c →
    c.search (n + i) ∈ searchesFrom n cs
  | c' :: cs, n, 0, h => by
    obtain rfl : c' = c := by simpa using h
    exact List.mem_cons_self
  | c' :: cs, n, i + 1, h => by
    have htail : cs[i]? = some c := by simpa using h
    have hmem := mem_searchesFrom (n := n + 1) htail
    rw [Nat.add_right_comm, Nat.add_assoc] at hmem
    exact List.mem_cons_of_mem _ hmem

/-- A statement that expands is its tree with each call replaced by its search, numbered in order. -/
theorem expand_spec {sql text : String} {searches : List Search} {q : SqlTree} (hparse : P.parseSql sql = .ok [q])
    (hreads : Numbered P.Reads 0 (q.calls P F)) (h : expand P F sql = .ok (text, searches)) :
    ∃ q', Expansion P F sql q text searches q' := by
  unfold expand at h
  rw [hparse] at h
  obtain ⟨⟨statements, s⟩, hvisit, h⟩ := bind_eq_ok.1 h
  obtain ⟨⟨q', s₁⟩, hq, hnone⟩ := bind_eq_ok.1 hvisit
  cases hnone
  obtain ⟨rfl, hexpanded⟩ := visitWith_spec visitInner_searchQuery q hq hreads
  dsimp only at h
  have hgathered : (Expand.grown ⟨[], []⟩ (q.calls P F) (q.cteNames P)) =
      ⟨searchesFrom 0 (q.calls P F), (q.cteNames P).map String.toLower⟩ := rfl
  rw [hgathered] at h
  split at h
  · cases h
  · next hshadow =>
    rw [List.any_eq_true] at hshadow
    have hunshadowed : ∀ c ∈ q.calls P F, ∀ name ∈ q.cteNames P, name.toLower ≠ c.table.toLower := by
      intro c hc name hname heq
      obtain ⟨i, hi⟩ := List.mem_iff_getElem?.1 hc
      exact hshadow ⟨_, mem_searchesFrom hi, decide_eq_true (List.mem_map.2 ⟨name, hname, heq⟩)⟩
    cases hcalls : q.calls P F with
    | nil =>
      rw [hcalls] at h hreads
      obtain ⟨rfl, rfl⟩ : sql = text ∧ searchesFrom 0 [] = searches := by simpa using Except.ok.inj h
      -- with no search to replace, the statement is itself
      have hself : q' = q := eq_of_expanded (hexpanded (fun _ _ _ => True) [] fun _ _ _ _ _ => trivial) hcalls
      exact ⟨q', .inr ⟨rfl, hself⟩, by rw [hcalls], hunshadowed, hexpanded⟩
    | cons c cs =>
      rw [hcalls] at h
      obtain ⟨rfl, rfl⟩ : P.print q' = text ∧ searchesFrom 0 (c :: cs) = searches := by simpa using Except.ok.inj h
      exact ⟨q', .inl rfl, by rw [hcalls], hunshadowed, hexpanded⟩

end Peql
