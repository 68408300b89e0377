import Mathlib.Algebra.Order.Ring.Nat
import Mathlib.Logic.Relation
import Peql.Error
import Peql.Lib.Utf8

/-!
# The statement guard

Callers read through contracts and nothing else: `check_sql` refuses any statement but one query, naming its verb. The
verb of a text that does not parse is its first keyword, found by a scan over its bytes that skips white space and
comments; the depth of nested comments is counted in an `i32`, and the scan panics (`none`) when it does not fit. What
the scan should find is said of characters: text is skipped step by step (`Skip`) until nothing can be (`Remains`).
-/

namespace Peql

open Utf8

/-! ## The first keyword -/

/-- `char::is_whitespace`. -/
def isWhitespace (c : Char) : Bool :=
  let n := c.toNat
  (9 ≤ n && n ≤ 13) || n = 32 || n = 0x85 || n = 0xa0 || n = 0x1680 || (0x2000 ≤ n && n ≤ 0x200a) || n = 0x2028 ||
    n = 0x2029 || n = 0x202f || n = 0x205f || n = 0x3000

def trimStart (cs : List Char) : List Char := cs.dropWhile isWhitespace

/-- `+= 1` on `i32`. -/
def deeper (depth : Int) : Option Int := if depth + 1 < 2 ^ 31 then some (depth + 1) else none

/-- The bytes of a block comment behind its opening, from index `i` on: the index where it ends. -/
def scanComment : List UInt8 → Nat → Int → Option Nat
  | [], i, _ => some i
  | [_], i, depth => some (if 0 < depth then i + 1 else i)
  | b :: b' :: bs, i, depth =>
    if depth ≤ 0 then some i
    else if b = 0x2f ∧ b' = 0x2a then do
      let depth ← deeper depth
      scanComment bs (i + 2) depth
    else if b = 0x2a ∧ b' = 0x2f then scanComment bs (i + 2) (depth - 1)
    else scanComment (b' :: bs) (i + 1) depth

/-- What follows a block comment, of the text behind its opening. -/
def afterBlock (r : List Char) : Option (List Char) := do
  let i ← scanComment (bytes r) 0 1
  let rest ← sliceFrom r (min i (bytes r).length)
  return trimStart rest

/-- What follows a line, if anything does. -/
def afterNewline (r : List Char) : List Char := (r.dropWhile fun c => c ≠ '\n').tail

/-- Trimming leaves no more characters. -/
theorem length_trimStart (cs : List Char) : (trimStart cs).length ≤ cs.length := (List.dropWhile_suffix _).length_le

theorem length_afterNewline (r : List Char) : (afterNewline r).length ≤ r.length := by
  unfold afterNewline
  rw [List.length_tail]
  exact (Nat.sub_le _ _).trans (List.dropWhile_suffix _).length_le

theorem length_afterBlock {r rest : List Char} (h : afterBlock r = some rest) : rest.length ≤ r.length := by
  unfold afterBlock at h
  simp only [Option.bind_eq_bind, Option.bind_eq_some_iff] at h
  obtain ⟨i, _, slice, hslice, hrest⟩ := h
  obtain rfl := Option.some.inj hrest
  exact (length_trimStart slice).trans (length_of_sliceFrom hslice)

/-- The loop of `first_keyword`. -/
def skipComments : List Char → Option (List Char)
  | '-' :: '-' :: r => skipComments (trimStart (afterNewline r))
  | '/' :: '*' :: r =>
    match _h : afterBlock r with
    | some rest => skipComments rest
    | none => none
  | rest => some rest
termination_by cs => cs.length
decreasing_by
  · have h := (length_trimStart (afterNewline r)).trans (length_afterNewline r)
    simp only [List.length_cons]
    omega
  · have hrest := length_afterBlock ‹_›
    simp only [List.length_cons]
    omega

/-- The leading ASCII letters of a text, upper-cased. -/
def keyword (rest : List Char) : String := String.ofList ((rest.takeWhile Char.isAlpha).map Char.toUpper)

/-- `first_keyword`. -/
def firstKeyword (sql : String) : Option String := (skipComments (trimStart sql.toList)).map keyword

/-! ## What the guard answers -/

/-- A statement as it is parsed; of one that is neither a query nor DataFusion's own, its text. -/
inductive ParsedStatement
  | query
  | statement (text : String)
  | explain
  | createExternalTable
  | copyTo
  | other

def refusedVerbs : List String :=
  ["INSTALL", "LOAD", "ATTACH", "DETACH", "COPY", "CREATE", "DROP", "INSERT", "UPDATE", "DELETE", "ALTER", "SET",
    "EXPLAIN", "PRAGMA"]

def statementVerb (text : String) : Option String := do
  let verb ← firstKeyword text
  return if verb.isEmpty then "statement" else verb

/-- `check_sql`, over what the parser makes of the text; `none` when it panics. -/
def checkSql (parse : String → Option (List ParsedStatement)) (sql : String) : Option (Except PeqlError Unit) :=
  match parse sql with
  | none => do
    let verb ← firstKeyword sql
    if verb ∈ refusedVerbs then return .error (.refused verb)
    else return .error (.invalid s!"cannot parse the query: {sql}")
  | some [.query] => some (.ok ())
  | some [.statement text] => do
    let verb ← statementVerb text
    return .error (.refused verb)
  | some [.explain] => some (.error (.refused "EXPLAIN"))
  | some [.createExternalTable] => some (.error (.refused "CREATE EXTERNAL TABLE"))
  | some [.copyTo] => some (.error (.refused "COPY"))
  | some [.other] => do
    let verb ← firstKeyword sql
    return .error (.refused verb)
  | some _ => some (.error (.refused "multiple statements"))

/-- The texts whose first keyword the guard looks for. -/
def keywordTexts (parse : String → Option (List ParsedStatement)) (sql : String) : List String :=
  match parse sql with
  | none | some [.other] => [sql]
  | some [.statement text] => [text]
  | _ => []

/-! ## What there is to skip -/

/-- Text inside so many block comments, and what follows the outermost. -/
inductive Closes : Nat → List Char → List Char → Prop
  | done (rest : List Char) : Closes 0 rest rest
  | opens {d : Nat} {text rest : List Char} : Closes (d + 2) text rest → Closes (d + 1) ('/' :: '*' :: text) rest
  | closes {d : Nat} {text rest : List Char} : Closes d text rest → Closes (d + 1) ('*' :: '/' :: text) rest
  | other {d : Nat} {c : Char} {text rest : List Char} (hopen : ¬ (c = '/' ∧ text.head? = some '*'))
      (hclose : ¬ (c = '*' ∧ text.head? = some '/')) : Closes (d + 1) text rest → Closes (d + 1) (c :: text) rest

/-- A text without its first white space or comment; a block comment that is not closed is all the text. -/
inductive Skip : List Char → List Char → Prop
  | white {c : Char} {text : List Char} (h : isWhitespace c = true) : Skip (c :: text) text
  | line (text : List Char) : Skip ('-' :: '-' :: text) (afterNewline text)
  | block {text rest : List Char} (h : Closes 1 text rest) : Skip ('/' :: '*' :: text) rest
  | unclosed {text : List Char} (h : ∀ rest, ¬ Closes 1 text rest) : Skip ('/' :: '*' :: text) []

/-- What remains of a text without its leading white space and comments. -/
def Remains (text rest : List Char) : Prop := Relation.ReflTransGen Skip text rest ∧ ∀ next, ¬ Skip rest next

/-- How deep a text inside so many comments goes, until the outermost is closed. -/
def deepest : Nat → List Char → Nat
  | 0, _ => 0
  | d + 1, '/' :: '*' :: text => max (d + 2) (deepest (d + 2) text)
  | d + 1, '*' :: '/' :: text => deepest d text
  | d + 1, _ :: text => deepest (d + 1) text
  | _ + 1, [] => 0

/-- No leading comment of a text nests deeper than an `i32` counts. -/
def Shallow (text : List Char) : Prop :=
  ∀ comment, Relation.ReflTransGen Skip text ('/' :: '*' :: comment) → deepest 1 comment < 2 ^ 31

/-! ## Closing a comment -/

/-- What follows the outermost of so many comments, if it is closed. -/
def closeFrom : Nat → List Char → Option (List Char)
  | 0, text => some text
  | d + 1, '/' :: '*' :: text => closeFrom (d + 2) text
  | d + 1, '*' :: '/' :: text => closeFrom d text
  | d + 1, _ :: text => closeFrom (d + 1) text
  | _ + 1, [] => none

/-- A character that begins no marker. -/
def Plain (c : Char) (text : List Char) : Prop :=
  ¬ (c = '/' ∧ text.head? = some '*') ∧ ¬ (c = '*' ∧ text.head? = some '/')

/-- A character that opens and closes nothing is plain. -/
theorem plain_of {c : Char} {text : List Char} (hopen : ∀ t, c = '/' → text = '*' :: t → False)
    (hclose : ∀ t, c = '*' → text = '/' :: t → False) : Plain c text := by
  constructor
  · rintro ⟨hc, hhead⟩
    obtain ⟨t, rfl⟩ := List.head?_eq_some_iff.1 hhead
    exact hopen t hc rfl
  · rintro ⟨hc, hhead⟩
    obtain ⟨t, rfl⟩ := List.head?_eq_some_iff.1 hhead
    exact hclose t hc rfl

/-- The text behind the closing mark is where the comment closes. -/
theorem closes_of_closeFrom {d : Nat} {text rest : List Char} (h : closeFrom d text = some rest) :
    Closes d text rest := by
  induction d, text using closeFrom.induct with
  | case1 text =>
    rw [closeFrom] at h
    obtain rfl := Option.some.inj h
    exact .done text
  | case2 d text ih => exact .opens (ih h)
  | case3 d text ih => exact .closes (ih h)
  | case4 d c text hopen hclose ih =>
    rw [closeFrom] at h
    · have hplain := plain_of hopen hclose
      exact .other hplain.1 hplain.2 (ih h)
    · exact hopen
    · exact hclose
  | case5 d => cases h

/-- And the other way round. -/
theorem closeFrom_of_closes {d : Nat} {text rest : List Char} (h : Closes d text rest) :
    closeFrom d text = some rest := by
  induction h with
  | done rest => rw [closeFrom]
  | opens _ ih => rwa [closeFrom]
  | closes _ ih => rwa [closeFrom]
  | other hopen hclose _ ih =>
    rw [closeFrom]
    · exact ih
    · rintro t rfl rfl
      exact hopen ⟨rfl, rfl⟩
    · rintro t rfl rfl
      exact hclose ⟨rfl, rfl⟩

/-! ## The scan over the bytes -/

theorem scan_zero (bs : List UInt8) (i : Nat) : scanComment bs i 0 = some i := by
  match bs with
  | [] => rfl
  | [_] => rfl
  | _ :: _ :: _ => rfl

/-- A byte that begins no marker. -/
theorem scan_byte {b : UInt8} {bs : List UInt8} {i : Nat} {depth : Int} (hdepth : 0 < depth)
    (hopen : ¬ (b = 0x2f ∧ bs.head? = some 0x2a)) (hclose : ¬ (b = 0x2a ∧ bs.head? = some 0x2f)) :
    scanComment (b :: bs) i depth = scanComment bs (i + 1) depth := by
  cases bs with
  | nil =>
    rw [scanComment, scanComment, if_pos hdepth]
  | cons b' bs =>
    rw [scanComment, if_neg (by omega), if_neg (by simpa using hopen), if_neg (by simpa using hclose)]

/-- Bytes of other characters are passed over. -/
theorem scan_high {hs bs : List UInt8} {i : Nat} {depth : Int} (hdepth : 0 < depth) (h : ∀ b ∈ hs, 128 ≤ b.toNat) :
    scanComment (hs ++ bs) i depth = scanComment bs (i + hs.length) depth := by
  induction hs generalizing i with
  | nil => rfl
  | cons b hs ih =>
    have hb := h b List.mem_cons_self
    have hne : ∀ x : UInt8, x.toNat < 128 → b ≠ x := by
      rintro x hx rfl
      omega
    rw [List.cons_append, scan_byte hdepth (fun hand => hne _ (by decide) hand.1)
      (fun hand => hne _ (by decide) hand.1),
      ih fun x hx => h x (List.mem_cons_of_mem _ hx), List.length_cons]
    congr 1
    omega

theorem ascii_slash : IsAscii '/' := by decide

theorem ascii_star : IsAscii '*' := by decide

/-- A character that begins no marker is passed over whole. -/
theorem scan_char {c : Char} {text : List Char} {i : Nat} {depth : Int} (hdepth : 0 < depth) (hplain : Plain c text) :
    scanComment (bytes (c :: text)) i depth =
      scanComment (bytes text) (i + (String.utf8EncodeChar c).length) depth := by
  by_cases hc : IsAscii c
  · rw [bytes_cons, encode_ascii hc]
    refine scan_byte hdepth ?_ ?_
    · rintro ⟨hbyte, hhead⟩
      exact hplain.1 ⟨toUInt8_inj hc ascii_slash hbyte, (head?_bytes ascii_star text).1 hhead⟩
    · rintro ⟨hbyte, hhead⟩
      exact hplain.2 ⟨toUInt8_inj hc ascii_star hbyte, (head?_bytes ascii_slash text).1 hhead⟩
  · rw [bytes_cons]
    exact scan_high hdepth (high_of_not_ascii hc)

theorem bytes_opens (text : List Char) : bytes ('/' :: '*' :: text) = 0x2f :: 0x2a :: bytes text := rfl

theorem bytes_closes (text : List Char) : bytes ('*' :: '/' :: text) = 0x2a :: 0x2f :: bytes text := rfl

/-- An opening mark goes one deeper. -/
theorem scan_opens (text : List Char) (i : Nat) {depth : Int} (hdepth : 0 < depth) :
    scanComment (bytes ('/' :: '*' :: text)) i depth =
      (deeper depth).bind fun depth => scanComment (bytes text) (i + 2) depth := by
  rw [bytes_opens, scanComment, if_neg (by omega), if_pos ⟨rfl, rfl⟩]
  rfl

/-- A closing mark comes one up. -/
theorem scan_closes (text : List Char) (i : Nat) {depth : Int} (hdepth : 0 < depth) :
    scanComment (bytes ('*' :: '/' :: text)) i depth = scanComment (bytes text) (i + 2) (depth - 1) := by
  rw [bytes_closes, scanComment, if_neg (by omega), if_neg (by decide), if_pos ⟨rfl, rfl⟩]

/-- Over a text that nests no deeper than an `i32` counts, the scan stops where the comment is closed, or at the end. -/
theorem scan_spec {d : Nat} {text : List Char} (i : Nat) (hdeep : deepest d text < 2 ^ 31) :
    ∃ body, text = body ++ (closeFrom d text).getD [] ∧ scanComment (bytes text) i d =
      some (i + (bytes body).length) := by
  induction d, text using closeFrom.induct generalizing i with
  | case1 text =>
    refine ⟨[], by rw [closeFrom]; rfl, ?_⟩
    exact scan_zero _ _
  | case2 d text ih =>
    rw [deepest] at hdeep
    have hdeeper : deeper ((d + 1 : ℕ) : Int) = some ((d + 2 : ℕ) : Int) := by
      unfold deeper
      rw [if_pos (by omega)]
      exact congrArg some (by omega)
    obtain ⟨body, htext, hscan⟩ := ih (i + 2) (by omega)
    refine ⟨'/' :: '*' :: body, ?_, ?_⟩
    · rw [closeFrom, List.cons_append, List.cons_append, ← htext]
    · rw [scan_opens text i (by omega), hdeeper, Option.bind_some, hscan, bytes_opens, List.length_cons,
        List.length_cons]
      exact congrArg some (by omega)
  | case3 d text ih =>
    rw [deepest] at hdeep
    obtain ⟨body, htext, hscan⟩ := ih (i + 2) hdeep
    refine ⟨'*' :: '/' :: body, ?_, ?_⟩
    · rw [closeFrom, List.cons_append, List.cons_append, ← htext]
    · rw [scan_closes text i (by omega), show ((d + 1 : ℕ) : Int) - 1 = (d : Int) by omega, hscan, bytes_closes,
        List.length_cons, List.length_cons]
      exact congrArg some (by omega)
  | case4 d c text hopen hclose ih =>
    rw [deepest] at hdeep
    · obtain ⟨body, htext, hscan⟩ := ih (i + (String.utf8EncodeChar c).length) hdeep
      refine ⟨c :: body, ?_, ?_⟩
      · rw [closeFrom, List.cons_append, ← htext]
        · exact hopen
        · exact hclose
      · rw [scan_char (by omega) (plain_of hopen hclose), hscan, bytes_cons, List.length_append]
        exact congrArg some (by omega)
    · exact hopen
    · exact hclose
  | case5 d => exact ⟨[], by rw [closeFrom]; rfl, rfl⟩

/-- Over a deeper one the scan panics. -/
theorem scan_overflows {d : Nat} {text : List Char} (i : Nat) (hd : d < 2 ^ 31) (hdeep : 2 ^ 31 ≤ deepest d text) :
    scanComment (bytes text) i d = none := by
  induction d, text using closeFrom.induct generalizing i with
  | case1 text =>
    rw [deepest] at hdeep
    omega
  | case2 d text ih =>
    rw [deepest] at hdeep
    rw [scan_opens text i (by omega)]
    unfold deeper
    split
    · rw [Option.bind_some, show ((d + 1 : ℕ) : Int) + 1 = ((d + 2 : ℕ) : Int) by omega]
      exact ih (i + 2) (by omega) (by omega)
    · rfl
  | case3 d text ih =>
    rw [deepest] at hdeep
    rw [scan_closes text i (by omega), show ((d + 1 : ℕ) : Int) - 1 = (d : Int) by omega]
    exact ih (i + 2) (by omega) hdeep
  | case4 d c text hopen hclose ih =>
    rw [deepest] at hdeep
    · rw [scan_char (by omega) (plain_of hopen hclose)]
      exact ih _ hd hdeep
    · exact hopen
    · exact hclose
  | case5 d =>
    rw [deepest] at hdeep
    omega

/-- The slice behind a comment is taken where a character begins. -/
theorem afterBlock_eq {r : List Char} (hdeep : deepest 1 r < 2 ^ 31) :
    afterBlock r = some (trimStart ((closeFrom 1 r).getD [])) := by
  obtain ⟨body, htext, hscan⟩ := scan_spec 0 hdeep
  have hmin : min (0 + (bytes body).length) (bytes r).length = (bytes body).length := by
    rw [htext, bytes_append, List.length_append]
    omega
  have hslice : sliceFrom r (bytes body).length = some ((closeFrom 1 r).getD []) := by
    conv_lhs => rw [htext]
    exact sliceFrom_append _ _
  unfold afterBlock
  rw [show (1 : Int) = ((1 : ℕ) : Int) from rfl, hscan]
  simp only [Option.bind_eq_bind, Option.bind_some, hmin, hslice]
  rfl

/-- A comment that nests too deep overflows. -/
theorem afterBlock_overflows {r : List Char} (hdeep : 2 ^ 31 ≤ deepest 1 r) : afterBlock r = none := by
  unfold afterBlock
  rw [show (1 : Int) = ((1 : ℕ) : Int) from rfl, scan_overflows 0 (by decide) hdeep]
  rfl

/-! ## Skipping -/

/-- There is one first thing to skip. -/
theorem Skip.det {text next next' : List Char} (h : Skip text next) (h' : Skip text next') : next = next' := by
  cases h with
  | white hw =>
    cases h' with
    | white _ => rfl
    | line _ => exact absurd hw (by decide)
    | block _ => exact absurd hw (by decide)
    | unclosed _ => exact absurd hw (by decide)
  | line _ =>
    cases h' with
    | white hw => exact absurd hw (by decide)
    | line _ => rfl
  | block hb =>
    cases h' with
    | white hw => exact absurd hw (by decide)
    | block hb' => exact Option.some.inj ((closeFrom_of_closes hb).symm.trans (closeFrom_of_closes hb'))
    | unclosed hu => exact absurd hb (hu _)
  | unclosed hu =>
    cases h' with
    | white hw => exact absurd hw (by decide)
    | block hb => exact absurd hb (hu _)
    | unclosed _ => rfl

/-- A block comment is skipped to its end, or the whole text with it. -/
theorem skip_block (r : List Char) : Skip ('/' :: '*' :: r) ((closeFrom 1 r).getD []) := by
  cases h : closeFrom 1 r with
  | some rest => exact .block (closes_of_closeFrom h)
  | none =>
    refine .unclosed fun rest hrest => ?_
    rw [closeFrom_of_closes hrest] at h
    cases h

theorem Remains.of_skip {text next rest : List Char} (h : Skip text next) (hrest : Remains next rest) :
    Remains text rest := ⟨hrest.1.head h, hrest.2⟩

theorem Remains.of_skips {text next rest : List Char} (h : Relation.ReflTransGen Skip text next)
    (hrest : Remains next rest) : Remains text rest := ⟨h.trans hrest.1, hrest.2⟩

/-- What remains of a text is one. -/
theorem Remains.unique {text rest rest' : List Char} (h : Remains text rest) (h' : Remains text rest') :
    rest = rest' := by
  obtain ⟨hsteps, hstop⟩ := h
  induction hsteps using Relation.ReflTransGen.head_induction_on with
  | refl =>
    rcases h'.1.cases_head with heq | ⟨next, hnext, _⟩
    · exact heq
    · exact absurd hnext (hstop next)
  | head hstep _ ih =>
    rcases h'.1.cases_head with rfl | ⟨next, hnext, hrest⟩
    · exact absurd hstep (h'.2 _)
    · rw [← hstep.det hnext] at hrest
      exact ih ⟨hrest, h'.2⟩

/-- A text is shallow when what follows what is skipped first is, and that itself when it is a block comment. -/
theorem shallow_iff_of_skip {text next : List Char} (h : Skip text next) :
    Shallow text ↔ (∀ comment, text = '/' :: '*' :: comment → deepest 1 comment < 2 ^ 31) ∧ Shallow next := by
  constructor
  · intro hshallow
    refine ⟨?_, fun comment hreach => hshallow comment (hreach.head h)⟩
    rintro comment rfl
    exact hshallow comment .refl
  · rintro ⟨hfirst, hnext⟩ comment hreach
    rcases hreach.cases_head with heq | ⟨next', hstep, hrest⟩
    · exact hfirst comment heq
    · rw [← h.det hstep] at hrest
      exact hnext comment hrest

/-- Trimming is skipping characters. -/
theorem skips_trimStart (text : List Char) : Relation.ReflTransGen Skip text (trimStart text) := by
  induction text with
  | nil => exact .refl
  | cons c text ih =>
    unfold trimStart at ih ⊢
    rw [List.dropWhile_cons]
    split
    next hw => exact ih.head (.white hw)
    next => exact .refl

/-- Blanks nest nothing. -/
theorem shallow_trimStart (text : List Char) : Shallow (trimStart text) ↔ Shallow text := by
  induction text with
  | nil => rfl
  | cons c text ih =>
    unfold trimStart at ih ⊢
    rw [List.dropWhile_cons]
    split
    next hw =>
      rw [ih, shallow_iff_of_skip (.white hw)]
      refine ⟨fun h => ⟨?_, h⟩, And.right⟩
      rintro comment heq
      obtain ⟨rfl, -⟩ := List.cons.inj heq
      exact absurd hw (by decide)
    next => rfl

/-- What a trimmed text begins with is no blank. -/
theorem trimStart_head {text rest : List Char} {c : Char} (h : trimStart text = c :: rest) :
    isWhitespace c = false := by
  have hne : text.dropWhile isWhitespace ≠ [] := by
    intro hnil
    unfold trimStart at h
    rw [hnil] at h
    cases h
  have hhead := List.head_dropWhile_not isWhitespace hne
  unfold trimStart at h
  simpa [h] using hhead

/-! ## What the loop leaves -/

/-- Of a text without leading white space, the loop leaves what remains, and panics only over a comment too deep. -/
theorem skipComments_spec (text : List Char) (htrim : ∀ c rest, text = c :: rest → isWhitespace c = false) :
    (Shallow text → ∃ rest, skipComments text = some rest ∧ Remains text rest) ∧
      (¬ Shallow text → skipComments text = none) := by
  induction text using skipComments.induct with
  | case1 r ih =>
    have hskip := Skip.line r
    obtain ⟨hok, hpanic⟩ := ih fun c rest h => trimStart_head h
    have hshallow : Shallow ('-' :: '-' :: r) ↔ Shallow (trimStart (afterNewline r)) := by
      rw [shallow_iff_of_skip hskip, shallow_trimStart]
      exact ⟨And.right, fun h => ⟨by rintro comment ⟨⟩, h⟩⟩
    rw [skipComments, hshallow]
    refine ⟨fun h => ?_, hpanic⟩
    obtain ⟨rest, hrest, hremains⟩ := hok h
    exact ⟨rest, hrest, .of_skip hskip (.of_skips (skips_trimStart _) hremains)⟩
  | case2 r rest hafter ih =>
    have hskip := skip_block r
    have hdeep : deepest 1 r < 2 ^ 31 := by
      by_contra hdeep
      rw [afterBlock_overflows (not_lt.1 hdeep)] at hafter
      cases hafter
    obtain rfl : trimStart ((closeFrom 1 r).getD []) = rest :=
      Option.some.inj ((afterBlock_eq hdeep).symm.trans hafter)
    obtain ⟨hok, hpanic⟩ := ih fun c rest h => trimStart_head h
    have hshallow : Shallow ('/' :: '*' :: r) ↔ Shallow (trimStart ((closeFrom 1 r).getD [])) := by
      rw [shallow_iff_of_skip hskip, shallow_trimStart]
      refine ⟨And.right, fun h => ⟨?_, h⟩⟩
      rintro comment ⟨⟩
      exact hdeep
    have hloop : skipComments ('/' :: '*' :: r) = skipComments (trimStart ((closeFrom 1 r).getD [])) := by
      rw [skipComments]
      split
      next heq => rw [Option.some.inj (heq.symm.trans hafter)]
      next heq => cases heq.symm.trans hafter
    rw [hloop, hshallow]
    refine ⟨fun h => ?_, hpanic⟩
    obtain ⟨rest, hrest, hremains⟩ := hok h
    exact ⟨rest, hrest, .of_skip hskip (.of_skips (skips_trimStart _) hremains)⟩
  | case3 r hafter =>
    have hdeep : ¬ deepest 1 r < 2 ^ 31 := by
      intro hdeep
      rw [afterBlock_eq hdeep] at hafter
      cases hafter
    refine ⟨fun h => absurd (h r .refl) hdeep, fun _ => ?_⟩
    rw [skipComments]
    split
    next heq => cases heq.symm.trans hafter
    next => rfl
  | case4 text hline hblock =>
    have hstop : ∀ next, ¬ Skip text next := by
      rintro next hskip
      cases hskip with
      | white hw => exact absurd hw (by rw [htrim _ _ rfl]; decide)
      | line r => exact hline r rfl
      | block _ => exact hblock _ rfl
      | unclosed _ => exact hblock _ rfl
    refine ⟨fun _ => ⟨text, ?_, .refl, hstop⟩, fun hdeep => absurd ?_ hdeep⟩
    · rw [skipComments]
      · exact hline
      · exact hblock
    · intro comment hreach
      rcases hreach.cases_head with rfl | ⟨next, hnext, _⟩
      · exact absurd rfl (hblock comment)
      · exact absurd hnext (hstop next)

/-- On a shallow text the first keyword is that of what remains behind blanks and comments. -/
theorem firstKeyword_of_shallow {sql : String} (h : Shallow sql.toList) :
    ∃ rest, Remains sql.toList rest ∧ firstKeyword sql = some (keyword rest) := by
  obtain ⟨rest, hrest, hremains⟩ :=
    (skipComments_spec (trimStart sql.toList) fun c rest h => trimStart_head h).1 ((shallow_trimStart _).2 h)
  refine ⟨rest, .of_skips (skips_trimStart _) hremains, ?_⟩
  unfold firstKeyword
  rw [hrest]
  rfl

/-- On another there is none. -/
theorem firstKeyword_panics {sql : String} (h : ¬ Shallow sql.toList) : firstKeyword sql = none := by
  unfold firstKeyword
  rw [(skipComments_spec (trimStart sql.toList) fun c rest h => trimStart_head h).2 fun hshallow =>
    h ((shallow_trimStart _).1 hshallow)]
  rfl

/-- The first keyword is found exactly where no leading comment nests too deep. -/
theorem firstKeyword_isSome_iff (sql : String) : (firstKeyword sql).isSome ↔ Shallow sql.toList := by
  by_cases h : Shallow sql.toList
  · obtain ⟨rest, _, hkeyword⟩ := firstKeyword_of_shallow h
    simp [hkeyword, h]
  · simp [firstKeyword_panics h, h]

/-- The check returns when every text it looks at is shallow. -/
theorem checkSql_isSome_iff (parse : String → Option (List ParsedStatement)) (sql : String) :
    (checkSql parse sql).isSome ↔ ∀ text ∈ keywordTexts parse sql, Shallow text.toList := by
  have hverb : ∀ (text : String) (f : String → Except PeqlError Unit),
      (((firstKeyword text).bind fun verb => some (f verb)).isSome ↔ Shallow text.toList) := by
    intro text f
    rw [← firstKeyword_isSome_iff]
    cases firstKeyword text <;> simp
  have hone : ∀ text : String, (∀ t ∈ [text], Shallow t.toList) ↔ Shallow text.toList := by simp
  cases hparse : parse sql with
  | none =>
    simp only [checkSql, keywordTexts, hparse]
    rw [hone, ← firstKeyword_isSome_iff]
    cases firstKeyword sql with
    | none => simp
    | some verb =>
      simp only [Option.bind_eq_bind, Option.bind_some]
      split <;> simp
  | some statements =>
    match statements with
    | [] => simp [checkSql, keywordTexts, hparse]
    | _ :: _ :: _ => simp [checkSql, keywordTexts, hparse]
    | [.query] => simp [checkSql, keywordTexts, hparse]
    | [.explain] => simp [checkSql, keywordTexts, hparse]
    | [.createExternalTable] => simp [checkSql, keywordTexts, hparse]
    | [.copyTo] => simp [checkSql, keywordTexts, hparse]
    | [.other] =>
      simp only [checkSql, keywordTexts, hparse]
      rw [hone]
      exact hverb sql _
    | [.statement text] =>
      simp only [checkSql, keywordTexts, hparse, statementVerb]
      rw [hone, ← firstKeyword_isSome_iff]
      cases firstKeyword text <;> simp

/-! ## Short texts -/

/-- A text nests no deeper than half its length. -/
theorem deepest_le (d : Nat) (text : List Char) : deepest d text ≤ d + text.length / 2 := by
  induction d, text using deepest.induct with
  | case1 text => simp [deepest]
  | case2 d text ih =>
    rw [deepest]
    simp only [List.length_cons]
    omega
  | case3 d text ih =>
    rw [deepest]
    simp only [List.length_cons]
    omega
  | case4 d c text hopen hclose ih =>
    rw [deepest]
    · simp only [List.length_cons]
      omega
    · exact hopen
    · exact hclose
  | case5 d => simp [deepest]

theorem length_of_closes {d : Nat} {text rest : List Char} (h : Closes d text rest) : rest.length ≤ text.length := by
  induction h with
  | done rest => exact le_rfl
  | opens _ ih =>
    simp only [List.length_cons]
    omega
  | closes _ ih =>
    simp only [List.length_cons]
    omega
  | other _ _ _ ih =>
    simp only [List.length_cons]
    omega

/-- Every skip leaves less text. -/
theorem Skip.length_lt {text next : List Char} (h : Skip text next) : next.length < text.length := by
  cases h with
  | white _ => exact Nat.lt_succ_self _
  | line r =>
    have hafter := length_afterNewline r
    simp only [List.length_cons]
    omega
  | block hb =>
    have hrest := length_of_closes hb
    simp only [List.length_cons]
    omega
  | unclosed _ => exact Nat.succ_pos _

theorem length_of_skips {text next : List Char} (h : Relation.ReflTransGen Skip text next) :
    next.length ≤ text.length := by
  induction h with
  | refl => exact le_rfl
  | tail _ hstep ih => exact hstep.length_lt.le.trans ih

/-- A comment nests so deep only in a text of 4 GiB. -/
theorem shallow_of_short {text : List Char} (h : text.length < 2 ^ 32) : Shallow text := by
  intro comment hreach
  have hlen := length_of_skips hreach
  have hdeep := deepest_le 1 comment
  simp only [List.length_cons] at hlen
  omega

/-! ## Deep texts -/

/-- So many comments opened one in another. -/
def openings : Nat → List Char
  | 0 => []
  | n + 1 => '/' :: '*' :: openings n

/-- So many openings nest so deep. -/
theorem deepest_openings (d n : Nat) (hn : 0 < n) : d + 1 + n ≤ deepest (d + 1) (openings n) := by
  induction n generalizing d with
  | zero => exact absurd hn (Nat.lt_irrefl 0)
  | succ n ih =>
    rw [openings, deepest]
    rcases Nat.eq_zero_or_pos n with rfl | hpos
    · omega
    · have hdeeper : d + 1 + 1 + n ≤ deepest (d + 2) (openings n) := ih (d + 1) hpos
      omega

/-- Enough of them nest too deep. -/
theorem not_shallow_openings {n : Nat} (h : 2 ^ 31 ≤ n) : ¬ Shallow (openings n) := by
  obtain ⟨m, rfl⟩ : ∃ m, n = m + 1 := ⟨n - 1, by omega⟩
  intro hshallow
  have hlt := hshallow (openings m) .refl
  have hdeep : 0 + 1 + m ≤ deepest 1 (openings m) := deepest_openings 0 m (by omega)
  omega

/-! ## The guard sees through comments -/

/-- The first keyword is that of what remains behind white space and comments, and the guard answers, exactly where no
comment nests deeper than an `i32` counts; it then names a verb hidden behind them. -/
theorem keyword_found_iff (parse : String → Option (List ParsedStatement)) (sql : String) :
    ((∃ rest, Remains sql.toList rest ∧ firstKeyword sql = some (keyword rest)) ↔ Shallow sql.toList) ∧
      ((checkSql parse sql).isSome ↔ ∀ text ∈ keywordTexts parse sql, Shallow text.toList) ∧
      ∀ rest, Shallow sql.toList → parse sql = none → Remains sql.toList rest → keyword rest ∈ refusedVerbs →
        checkSql parse sql = some (.error (.refused (keyword rest))) := by
  refine ⟨⟨?_, firstKeyword_of_shallow⟩, checkSql_isSome_iff parse sql, ?_⟩
  · rintro ⟨rest, -, hkeyword⟩
    rw [← firstKeyword_isSome_iff, hkeyword]
    rfl
  · intro rest hshallow hparse hremains hverb
    obtain ⟨rest', hremains', hkeyword⟩ := firstKeyword_of_shallow hshallow
    rw [hremains'.unique hremains] at hkeyword
    simp only [checkSql, hparse]
    rw [hkeyword, Option.bind_eq_bind, Option.bind_some, if_pos hverb]
    rfl

/-- What remains of a text whose keyword follows one comment. -/
theorem remains_hidden_copy : Remains "/*hi*/ COPY t".toList "COPY t".toList := by
  refine ⟨.head (.block (closes_of_closeFrom rfl)) (.head (.white (by decide)) .refl), ?_⟩
  rintro next hskip
  cases hskip with
  | white hw => exact absurd hw (by decide)

theorem keyword_found_hidden_copy :
    checkSql (fun _ => none) "/*hi*/ COPY t" = some (.error (.refused (keyword "COPY t".toList))) :=
  (keyword_found_iff (fun _ => none) "/*hi*/ COPY t").2.2 "COPY t".toList (shallow_of_short (by decide)) rfl
    remains_hidden_copy (by decide)

/-- Two thousand million openings are one too many. -/
theorem keyword_not_found_in_openings :
    ¬ ∃ rest, Remains (String.ofList (openings (2 ^ 31))).toList rest ∧
      firstKeyword (String.ofList (openings (2 ^ 31))) = some (keyword rest) := by
  rintro ⟨rest, -, hkeyword⟩
  have hdeep : ¬ Shallow (String.ofList (openings (2 ^ 31))).toList := by
    rw [String.toList_ofList]
    exact not_shallow_openings le_rfl
  rw [firstKeyword_panics hdeep] at hkeyword
  cases hkeyword

end Peql
