import Peql.Engine.Query
import Peql.Lib.Debug

/-!
# What a cache key says

The key of an answer is the hash of one text, its SQL followed by a name and a fingerprint for each contract read, with
the names kept beside it. Where neither names nor fingerprints hold the separator U+001E, the text is read off from its
end, as many contracts as there are names, and whatever the SQL holds (`CacheKey.new_inj`). A fingerprint gives back
everything it was made of but the parameters' values, of which it gives back the `Debug` forms (`fingerprint_inj`).
-/

namespace Peql

/-- The separator before a contract's name. -/
def Separated (s : String) : Prop := '\x1e' ∉ s.toList

/-- The text of an answer's key. -/
def keyText (sql : String) (parts : List (String × String)) : String :=
  parts.foldl (fun text part => text ++ "\x1e" ++ part.1 ++ "\x1f" ++ part.2) sql

theorem keyText_inj {sql sql' : String} {parts parts' : List (String × String)}
    (hparts : ∀ p ∈ parts, Separated p.1 ∧ Separated p.2) (hparts' : ∀ p ∈ parts', Separated p.1 ∧ Separated p.2)
    (hnames : parts.map Prod.fst = parts'.map Prod.fst) (h : keyText sql parts = keyText sql' parts') :
    sql = sql' ∧ parts = parts' := by
  -- The last contract is read off the end of the text, then the one before it.
  induction parts using List.reverseRecOn generalizing parts' with
  | nil =>
    obtain rfl := List.map_eq_nil_iff.1 hnames.symm
    exact ⟨h, rfl⟩
  | append_singleton init p ih =>
    obtain rfl | ⟨init', p', rfl⟩ := List.eq_nil_or_concat' parts'
    · simp at hnames
    · rw [List.map_append, List.map_append] at hnames
      obtain ⟨hinit, hlast⟩ := List.append_inj' hnames rfl
      obtain ⟨n, f⟩ := p
      obtain ⟨n', f'⟩ := p'
      obtain rfl : n = n' := by simpa using hlast
      have hp := hparts (n, f) (by simp)
      have hp' := hparts' (n, f') (by simp)
      have hlist : (keyText sql init).toList ++ '\x1e' :: (n.toList ++ '\x1f' :: f.toList) =
          (keyText sql' init').toList ++ '\x1e' :: (n.toList ++ '\x1f' :: f'.toList) := by
        have htext := congrArg String.toList h
        simpa [keyText, List.foldl_append, String.toList_append] using htext
      have hnot : ∀ g : String, Separated g → '\x1e' ∉ n.toList ++ '\x1f' :: g.toList := by
        intro g hg hmem
        rcases List.mem_append.1 hmem with hmem | hmem
        · exact hp.1 hmem
        · rcases List.mem_cons.1 hmem with hmem | hmem
          · exact absurd hmem (by decide)
          · exact hg hmem
      obtain ⟨hbefore, hafter⟩ := Debug.cut_last (hnot f hp.2) (hnot f' hp'.2) hlist
      have hf : f = f' := String.toList_inj.1 (List.cons.inj (List.append_cancel_left hafter)).2
      obtain ⟨rfl, rfl⟩ := ih (fun q hq => hparts q (by simp [hq])) (fun q hq => hparts' q (by simp [hq])) hinit
        (String.toList_inj.1 hbefore)
      rw [hf]
      exact ⟨rfl, rfl⟩

/-- Two answers have one key exactly when their SQL and all they read of contracts are one. -/
theorem CacheKey.new_inj {sha256 : String → String} (hsha : Function.Injective sha256) {sql sql' : String}
    {parts parts' : List (String × String)} (hparts : ∀ p ∈ parts, Separated p.1 ∧ Separated p.2)
    (hparts' : ∀ p ∈ parts', Separated p.1 ∧ Separated p.2)
    (h : CacheKey.new sha256 sql parts = CacheKey.new sha256 sql' parts') : sql = sql' ∧ parts = parts' := by
  obtain ⟨hdigest, hnames⟩ := CacheKey.mk.inj h
  exact keyText_inj hparts hparts' hnames (hsha hdigest)

/-! ## Fingerprints -/

section Fingerprint

variable (R : Runtime)

/-- The fingerprint of a contract as it was read. -/
def fingerprint (compilationHash : String) (params : List (String × Value)) (shapes : List String) (m : Manifest) :
    String :=
  s!"{compilationHash}|{debugParams R params}|{debugStrings R.printable shapes}|{m.dataHash}|" ++
    s!"{m.writtenAt}|{debugSnapshot m.snapshotId}"

variable {R}

theorem debugStrings_delimited (printable : Char → Bool) {xs ys : List String} {s t : List Char}
    (h : (debugStrings printable xs).toList ++ s = (debugStrings printable ys).toList ++ t) : xs = ys ∧ s = t := by
  unfold debugStrings at h
  rw [String.toList_ofList, String.toList_ofList] at h
  exact Debug.vec_delimited (Debug.string_delimited printable) (Debug.string_avoids printable) h

/-- Parameters as their forms show them. -/
def asShown (R : Runtime) (params : List (String × Value)) : List (String × String) :=
  params.map fun p => (p.1, R.debugValue p.2)

theorem debugParams_delimited {ps qs : List (String × Value)} {s t : List Char}
    (h : (debugParams R ps).toList ++ s = (debugParams R qs).toList ++ t) : asShown R ps = asShown R qs ∧ s = t := by
  unfold debugParams at h
  rw [String.toList_ofList, String.toList_ofList] at h
  exact Debug.vec_delimited (Debug.pair_delimited (Debug.string_delimited _) (Debug.string_delimited _))
    (Debug.pair_avoids _ _) h

theorem bar_notMem_debugSnapshot (s : Option Int) : '|' ∉ (debugSnapshot s).toList := by
  cases s with
  | none => decide
  | some n =>
    have hn := Debug.notMem_toString (c := '|') rfl (by decide) n
    show '|' ∉ ("Some(" ++ toString n ++ ")").toList
    simp only [String.toList_append, List.mem_append, not_or]
    exact ⟨⟨by decide, hn⟩, by decide⟩

theorem debugSnapshot_inj {s t : Option Int} (h : debugSnapshot s = debugSnapshot t) : s = t := by
  have hsome : ∀ n : Int, (debugSnapshot (some n)).toList = "Some(".toList ++ ((toString n).toList ++ [')']) := by
    intro n
    show ("Some(" ++ toString n ++ ")").toList = _
    simp [String.toList_append]
  have hnone : ∀ n : Int, debugSnapshot (some n) ≠ debugSnapshot none := by
    intro n heq
    have hlist := congrArg String.toList heq
    rw [hsome] at hlist
    exact absurd (List.cons.inj hlist).1 (by decide)
  cases s with
  | none =>
    cases t with
    | none => rfl
    | some n => exact absurd h.symm (hnone n)
  | some m =>
    cases t with
    | none => exact absurd h (hnone m)
    | some n =>
      have hlist := congrArg String.toList h
      rw [hsome, hsome] at hlist
      have hdigits := List.append_cancel_right (List.append_cancel_left hlist)
      rw [Debug.toString_int_inj (String.toList_inj.1 hdigits)]

/-- Two fingerprints that are one were made of the same, but for values with one `Debug` form. -/
theorem fingerprint_inj {c c' : String} {ps qs : List (String × Value)} {xs ys : List String} {m m' : Manifest}
    (hc : '|' ∉ c.toList) (hc' : '|' ∉ c'.toList) (h : fingerprint R c ps xs m = fingerprint R c' qs ys m') :
    c = c' ∧ asShown R ps = asShown R qs ∧ xs = ys ∧ m.dataHash = m'.dataHash ∧ m.writtenAt = m'.writtenAt ∧
      m.snapshotId = m'.snapshotId := by
  have hlist : ∀ (c : String) (ps : List (String × Value)) (xs : List String) (m : Manifest),
      (fingerprint R c ps xs m).toList = c.toList ++ '|' :: ((debugParams R ps).toList ++ '|' ::
        ((debugStrings R.printable xs).toList ++ '|' :: ((m.dataHash.toList ++ '|' :: (toString m.writtenAt).toList) ++
          '|' :: (debugSnapshot m.snapshotId).toList))) := by
    intro c ps xs m
    show ((c ++ "|" ++ debugParams R ps ++ "|" ++ debugStrings R.printable xs ++ "|" ++ m.dataHash ++ "|") ++
      (toString m.writtenAt ++ "|" ++ debugSnapshot m.snapshotId)).toList = _
    simp [String.toList_append]
  have hall := congrArg String.toList h
  rw [hlist, hlist] at hall
  -- From the left up to the shapes, from the right down to the data's hash.
  obtain ⟨hcomp, hall⟩ := Debug.cut hc hc' hall
  obtain ⟨hparams, hall⟩ := debugParams_delimited hall
  obtain ⟨hshapes, hall⟩ := debugStrings_delimited R.printable (List.cons.inj hall).2
  obtain ⟨hrest, hsnapshot⟩ :=
    Debug.cut_last (bar_notMem_debugSnapshot _) (bar_notMem_debugSnapshot _) (List.cons.inj hall).2
  obtain ⟨hdata, htime⟩ := Debug.cut_last (Debug.notMem_toString rfl (by decide) _)
    (Debug.notMem_toString rfl (by decide) _) hrest
  exact ⟨String.toList_inj.1 hcomp, hparams, hshapes, String.toList_inj.1 hdata,
    Debug.toString_int_inj (String.toList_inj.1 htime), debugSnapshot_inj (String.toList_inj.1 hsnapshot)⟩

end Fingerprint

end Peql
