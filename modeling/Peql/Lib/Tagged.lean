import Mathlib.Data.List.Basic

/-!
# Lines of a name and a tag

A list of lines is written as each line's name, a separator, its tag and a stop, one after another. Names are free: they
may hold separators, stops, and whole lines. Where the separator is in no tag, is not the stop, and all tags are of one
length, two lists have one text exactly when they are `Alike`: line by line the same, but for names of one that begin
with whole lines of the other. Lists that are alike without being the same are `Confused`.
-/

namespace Tagged

variable {α : Type*}

structure Line (α : Type*) where
  name : List α
  tag : List α

section Text

variable (sep stop : α)

def Line.text (l : Line α) : List α := l.name ++ sep :: (l.tag ++ [stop])

def text (ls : List (Line α)) : List α := ls.flatMap (Line.text sep stop)

/-- `l` with a name that begins with the whole of `first`. -/
def Line.behind (first l : Line α) : Line α := ⟨first.text sep stop ++ l.name, l.tag⟩

/-- A line of a tag of length `n` without the separator. -/
structure Line.Proper (n : Nat) (l : Line α) : Prop where
  length : l.tag.length = n
  plain : sep ∉ l.tag

/-- Two lists of lines that are written alike. -/
inductive Alike : List (Line α) → List (Line α) → Prop
  | nil : Alike [] []
  | same {as bs : List (Line α)} (l : Line α) (rest : Alike as bs) : Alike (l :: as) (l :: bs)
  | left {as bs : List (Line α)} (first l : Line α) (rest : Alike (l :: as) bs) :
      Alike (first.behind sep stop l :: as) (first :: bs)
  | right {as bs : List (Line α)} (first l : Line α) (rest : Alike as (l :: bs)) :
      Alike (first :: as) (first.behind sep stop l :: bs)

/-- Two lists that agree up to a line whose name begins with a whole line of the other list, and are written alike from
there on. -/
inductive Confused : List (Line α) → List (Line α) → Prop
  | left {as bs : List (Line α)} (first l : Line α) (rest : Alike sep stop (l :: as) bs) :
      Confused (first.behind sep stop l :: as) (first :: bs)
  | right {as bs : List (Line α)} (first l : Line α) (rest : Alike sep stop as (l :: bs)) :
      Confused (first :: as) (first.behind sep stop l :: bs)
  | later {as bs : List (Line α)} (l : Line α) (rest : Confused as bs) : Confused (l :: as) (l :: bs)

end Text

variable {sep stop : α} {n : Nat} {as bs : List (Line α)}

@[simp] theorem text_nil : text sep stop ([] : List (Line α)) = [] := rfl

@[simp] theorem text_cons (l : Line α) (ls : List (Line α)) :
    text sep stop (l :: ls) = l.text sep stop ++ text sep stop ls := rfl

theorem text_behind (first l : Line α) :
    (first.behind sep stop l).text sep stop = first.text sep stop ++ l.text sep stop := by
  simp [Line.behind, Line.text]

theorem Line.text_ne_nil (l : Line α) : l.text sep stop ≠ [] := by
  simp [Line.text]

theorem Line.Proper.behind {l : Line α} (h : l.Proper sep n) (first : Line α) :
    (first.behind sep stop l).Proper sep n :=
  ⟨h.length, h.plain⟩

theorem Line.length_name_lt_behind (first l : Line α) : first.name.length < (first.behind sep stop l).name.length := by
  simp only [Line.behind, Line.text, List.length_append, List.length_cons]
  omega

/-! ## What is written alike -/

theorem Alike.refl : ∀ ls : List (Line α), Alike sep stop ls ls
  | [] => .nil
  | l :: ls => .same l (Alike.refl ls)

theorem Alike.text_eq (h : Alike sep stop as bs) : text sep stop as = text sep stop bs := by
  induction h with
  | nil => rfl
  | same l _ ih => rw [text_cons, text_cons, ih]
  | left first l _ ih => rw [text_cons, text_behind, List.append_assoc, ← text_cons, ih, text_cons]
  | right first l _ ih => rw [text_cons, ih, text_cons, text_cons, text_behind, List.append_assoc]

/-- A text that begins with a line of a shorter name than its own first line's: that name begins with the whole line. -/
theorem eq_behind {l first : Line α} (hf : first.Proper sep n) (hss : sep ≠ stop) {xs ys : List α}
    (h : l.text sep stop ++ xs = first.text sep stop ++ ys) (hlt : first.name.length < l.name.length) :
    ∃ r, l.name = first.text sep stop ++ r := by
  have hlen : (first.text sep stop).length = first.name.length + n + 2 := by
    simp only [Line.text, List.length_append, List.length_cons, List.length_nil, hf.length]
    omega
  by_cases hlong : (first.text sep stop).length ≤ l.name.length
  · -- The whole line fits into the name.
    refine ⟨l.name.drop (first.text sep stop).length, ?_⟩
    have hopen : l.text sep stop ++ xs = l.name ++ (sep :: (l.tag ++ [stop]) ++ xs) := List.append_assoc ..
    have htake := congrArg (List.take (first.text sep stop).length) (hopen.symm.trans h)
    rw [List.take_append_of_le_length hlong, List.take_append_of_le_length (Nat.le_refl _), List.take_length] at htake
    calc l.name = List.take (first.text sep stop).length l.name ++ List.drop (first.text sep stop).length l.name :=
          (List.take_append_drop ..).symm
      _ = first.text sep stop ++ List.drop (first.text sep stop).length l.name := by rw [htake]
  · -- The separator after the name would be in the tag, or be the stop.
    exfalso
    obtain ⟨k, hk⟩ : ∃ k, l.name.length = first.name.length + 1 + k := ⟨_, (Nat.add_sub_of_le hlt).symm⟩
    have hsep := congrArg (fun t : List α => t[l.name.length]?) h
    simp only [Line.text, List.append_assoc, List.cons_append] at hsep
    rw [List.getElem?_append_right (Nat.le_refl _), Nat.sub_self, List.getElem?_cons_zero,
      List.getElem?_append_right (by omega), show l.name.length - first.name.length = k + 1 by omega,
      List.getElem?_cons_succ] at hsep
    rcases Nat.lt_or_eq_of_le (show k ≤ n by omega) with hkn | hkn
    · rw [List.getElem?_append_left (by rw [hf.length]; exact hkn)] at hsep
      exact hf.plain (List.mem_of_getElem? hsep.symm)
    · rw [List.getElem?_append_right (by rw [hf.length]; omega), hf.length, hkn, Nat.sub_self] at hsep
      exact hss (Option.some.inj hsep)

/-- Two lists of one text are alike: by induction on how many lines there are, each step taking a line off one of
them. -/
theorem alike_of_text_eq (hss : sep ≠ stop) (has : ∀ l ∈ as, l.Proper sep n) (hbs : ∀ l ∈ bs, l.Proper sep n)
    (h : text sep stop as = text sep stop bs) : Alike sep stop as bs := by
  induction hm : as.length + bs.length using Nat.strongRecOn generalizing as bs with
  | _ m ih =>
  match as, bs with
  | [], [] => exact .nil
  | [], b :: bs => exact absurd (List.append_eq_nil_iff.1 h.symm).1 b.text_ne_nil
  | a :: as, [] => exact absurd (List.append_eq_nil_iff.1 h).1 a.text_ne_nil
  | a :: as, b :: bs =>
    have ha := has a List.mem_cons_self
    have hb := hbs b List.mem_cons_self
    have has' : ∀ l ∈ as, l.Proper sep n := fun l hl => has l (List.mem_cons_of_mem _ hl)
    have hbs' : ∀ l ∈ bs, l.Proper sep n := fun l hl => hbs l (List.mem_cons_of_mem _ hl)
    rw [text_cons, text_cons] at h
    simp only [List.length_cons] at hm
    rcases Nat.lt_trichotomy b.name.length a.name.length with hlt | heq | hlt
    · obtain ⟨r, hr⟩ := eq_behind hb hss h hlt
      have hal : a = b.behind sep stop ⟨r, a.tag⟩ := by
        cases a
        simp only [Line.behind]
        exact congrArg (Line.mk · _) hr
      rw [hal, text_behind, List.append_assoc, List.append_cancel_left_eq, ← text_cons] at h
      rw [hal]
      refine .left b ⟨r, a.tag⟩ (ih _ ?_ ?_ hbs' h rfl)
      · simp only [List.length_cons]
        omega
      · rintro l (_ | ⟨_, hl⟩)
        · exact ⟨ha.length, ha.plain⟩
        · exact has' l hl
    · have htag : (a.text sep stop).length = (b.text sep stop).length := by
        simp only [Line.text, List.length_append, List.length_cons, ha.length, hb.length, heq]
      obtain ⟨hline, hrest⟩ := List.append_inj h htag
      obtain ⟨hname, hend⟩ := List.append_inj hline heq.symm
      obtain rfl : a = b := by
        cases a
        cases b
        obtain ⟨rfl, _⟩ := List.append_inj' (List.cons.inj hend).2 rfl
        exact congrArg (Line.mk · _) hname
      exact .same a (ih _ (by omega) has' hbs' hrest rfl)
    · obtain ⟨r, hr⟩ := eq_behind ha hss h.symm hlt
      have hal : b = a.behind sep stop ⟨r, b.tag⟩ := by
        cases b
        simp only [Line.behind]
        exact congrArg (Line.mk · _) hr
      rw [hal, text_behind, List.append_assoc, List.append_cancel_left_eq, ← text_cons] at h
      rw [hal]
      refine .right a ⟨r, b.tag⟩ (ih _ ?_ has' ?_ h rfl)
      · simp only [List.length_cons]
        omega
      · rintro l (_ | ⟨_, hl⟩)
        · exact ⟨hb.length, hb.plain⟩
        · exact hbs' l hl

theorem text_eq_iff (hss : sep ≠ stop) (has : ∀ l ∈ as, l.Proper sep n) (hbs : ∀ l ∈ bs, l.Proper sep n) :
    text sep stop as = text sep stop bs ↔ Alike sep stop as bs :=
  ⟨alike_of_text_eq hss has hbs, Alike.text_eq⟩

/-! ## What is confused -/

theorem Confused.alike (h : Confused sep stop as bs) : Alike sep stop as bs := by
  induction h with
  | left first l rest => exact .left first l rest
  | right first l rest => exact .right first l rest
  | later l _ ih => exact .same l ih

/-- Confused lists do not even have the same names. -/
theorem Confused.names_ne (h : Confused sep stop as bs) : as.map Line.name ≠ bs.map Line.name := by
  induction h with
  | left first l _ =>
    intro heq
    have hlt : first.name.length < (first.behind sep stop l).name.length := Line.length_name_lt_behind first l
    rw [(List.cons.inj heq).1] at hlt
    exact Nat.lt_irrefl _ hlt
  | right first l _ =>
    intro heq
    have hlt : first.name.length < (first.behind sep stop l).name.length := Line.length_name_lt_behind first l
    rw [← (List.cons.inj heq).1] at hlt
    exact Nat.lt_irrefl _ hlt
  | later l _ ih => exact fun heq => ih (List.cons.inj heq).2

theorem alike_iff : Alike sep stop as bs ↔ as = bs ∨ Confused sep stop as bs := by
  constructor
  · intro h
    induction h with
    | nil => exact .inl rfl
    | same l _ ih => exact ih.imp (congrArg _) (.later l)
    | left first l rest => exact .inr (.left first l rest)
    | right first l rest => exact .inr (.right first l rest)
  · rintro (rfl | h)
    · exact .refl as
    · exact h.alike

/-- One of two confused lists has a line whose name begins with a whole line of the other. -/
theorem Confused.behind (h : Confused sep stop as bs) :
    ∃ first l, first.behind sep stop l ∈ as ∧ first ∈ bs ∨ first ∈ as ∧ first.behind sep stop l ∈ bs := by
  induction h with
  | left first l _ => exact ⟨first, l, .inl ⟨List.mem_cons_self, List.mem_cons_self⟩⟩
  | right first l _ => exact ⟨first, l, .inr ⟨List.mem_cons_self, List.mem_cons_self⟩⟩
  | later l' _ ih =>
    obtain ⟨first, l, hin⟩ := ih
    exact ⟨first, l, hin.imp (And.imp (List.mem_cons_of_mem _) (List.mem_cons_of_mem _))
      (And.imp (List.mem_cons_of_mem _) (List.mem_cons_of_mem _))⟩

end Tagged
