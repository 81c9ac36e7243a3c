import Mathlib.Data.List.TakeWhile
import ClassCompiler.Text.Qualified

/-!
# Identifiers

Texts put marks between names: brackets and commas in the keys of methods, dots and slashes in
paths, semicolons in descriptors. A name that has none of the marks ends where the next mark stands,
so a text that is made of such names tells which they are.
-/

namespace ClassCompiler.Text

def marks : List Char := ['(', ')', '[', ']', ',', ' ', '.', '/', ';']

/-- A name that is not empty and has no mark in it. Identifiers are such names, in whatever alphabet
they are written. -/
def IsIdentifier (name : String) : Prop := name ≠ "" ∧ ∀ char ∈ name.toList, char ∉ marks

instance (name : String) : Decidable (IsIdentifier name) :=
  -- the characters of the name are gone through, and not the whole alphabet
  @instDecidableAnd _ _ inferInstance (List.decidableBAll (· ∉ marks) name.toList)

def IsPath (path : String) : Prop :=
  ∃ segments : List String, segments ≠ [] ∧ (∀ segment ∈ segments, IsIdentifier segment) ∧
    path = ".".intercalate segments

theorem IsIdentifier.not_mem {name : String} (h : IsIdentifier name) {mark : Char}
    (hmark : mark ∈ marks) : mark ∉ name.toList :=
  fun hmem => h.2 mark hmem hmark

section

variable {mark : Char} {name name' rest rest' gap : List Char}

/-- A mark ends what has no such mark in it. -/
theorem append_cons_inj (hname : mark ∉ name) (hname' : mark ∉ name')
    (h : name ++ mark :: rest = name' ++ mark :: rest') : name = name' ∧ rest = rest' := by
  induction name generalizing name' with
  | nil =>
    cases name' with
    | nil => exact ⟨rfl, (List.cons.inj h).2⟩
    | cons char others =>
      obtain ⟨rfl, _⟩ := List.cons.inj h
      exact absurd List.mem_cons_self hname'
  | cons first others ih =>
    cases name' with
    | nil =>
      obtain ⟨rfl, _⟩ := List.cons.inj h
      exact absurd List.mem_cons_self hname
    | cons first' others' =>
      obtain ⟨rfl, hothers⟩ := List.cons.inj h
      obtain ⟨rfl, rfl⟩ := ih (fun hmem => hname (List.mem_cons_of_mem _ hmem))
        (fun hmem => hname' (List.mem_cons_of_mem _ hmem)) hothers
      exact ⟨rfl, rfl⟩

/-- What follows a mark does not matter to what comes before the first one. -/
theorem takeWhile_append_cons (name rest : List Char) :
    (name ++ mark :: rest).takeWhile (· ≠ mark) = name.takeWhile (· ≠ mark) := by
  rw [List.takeWhile_append, List.takeWhile_cons_of_neg (by simp), List.append_nil]
  split
  · next hlength => exact ((List.takeWhile_prefix _).eq_of_length hlength).symm
  · rfl

/-- A text with separators between its parts tells its parts, if these are not empty and the
separator begins with a mark that they do not have. -/
theorem intercalate_inj {parts parts' : List (List Char)}
    (hparts : ∀ part ∈ parts, part ≠ [] ∧ mark ∉ part)
    (hparts' : ∀ part ∈ parts', part ≠ [] ∧ mark ∉ part)
    (h : (mark :: gap).intercalate parts = (mark :: gap).intercalate parts') : parts = parts' := by
  induction parts generalizing parts' with
  | nil =>
    cases parts' with
    | nil => rfl
    | cons first' others' =>
      have hfirst' := (hparts' first' List.mem_cons_self).1
      cases others' <;> simp [List.intercalate_cons_cons, hfirst'] at h
  | cons first others ih =>
    obtain ⟨⟨hfirst, hmark⟩, hothers⟩ := List.forall_mem_cons.mp hparts
    cases parts' with
    | nil => cases others <;> simp [List.intercalate_cons_cons, hfirst] at h
    | cons first' others' =>
      obtain ⟨⟨_, hmark'⟩, hothers'⟩ := List.forall_mem_cons.mp hparts'
      cases others with
      | nil =>
        cases others' with
        | nil => simpa using h
        | cons second' later' =>
          -- the other text goes on with a mark, and this one has none
          refine absurd ?_ hmark
          rw [List.intercalate_singleton, List.intercalate_cons_cons] at h
          simp [h]
      | cons second later =>
        cases others' with
        | nil =>
          refine absurd ?_ hmark'
          rw [List.intercalate_singleton, List.intercalate_cons_cons] at h
          simp [← h]
        | cons second' later' =>
          simp only [List.intercalate_cons_cons, List.append_assoc, List.cons_append] at h
          obtain ⟨rfl, hlater⟩ := append_cons_inj hmark hmark' h
          rw [ih hothers hothers' (List.append_cancel_left hlater)]

theorem not_mem_intercalate {parts : List (List Char)} (hgap : mark ∉ gap)
    (hparts : ∀ part ∈ parts, mark ∉ part) : mark ∉ gap.intercalate parts := by
  induction parts with
  | nil => exact List.not_mem_nil
  | cons first others ih =>
    obtain ⟨hfirst, hothers⟩ := List.forall_mem_cons.mp hparts
    cases others with
    | nil => simpa using hfirst
    | cons second later =>
      rw [List.intercalate_cons_cons, List.mem_append, List.mem_append, not_or, not_or]
      exact ⟨⟨hfirst, hgap⟩, ih hothers⟩

end

theorem IsPath.not_mem {path : String} (h : IsPath path) {mark : Char} (hmark : mark ∈ marks)
    (hdot : mark ≠ '.') : mark ∉ path.toList := by
  obtain ⟨segments, _, hsegments, rfl⟩ := h
  rw [String.toList_intercalate]
  refine not_mem_intercalate (by simpa using hdot) ?_
  rw [List.forall_mem_map]
  exact fun segment hsegment => (hsegments segment hsegment).not_mem hmark

def afterSlash (path : String) : String :=
  String.ofList (path.toList.reverse.takeWhile (· ≠ '/')).reverse

theorem afterSlash_of_not_mem {path : String} (h : '/' ∉ path.toList) : afterSlash path = path := by
  have hall : path.toList.reverse.takeWhile (· ≠ '/') = path.toList.reverse := by
    rw [List.takeWhile_eq_self_iff]
    intro char hchar
    have hne : char ≠ '/' := fun heq => h (heq ▸ List.mem_reverse.mp hchar)
    simpa using hne
  rw [afterSlash, hall, List.reverse_reverse, String.ofList_toList]

theorem takeWhile_slashed {chars : List Char} (h : '/' ∉ chars) :
    (chars.map fun char => if char = '.' then '/' else char).takeWhile (· ≠ '/') =
      chars.takeWhile (· ≠ '.') := by
  induction chars with
  | nil => rfl
  | cons first rest ih =>
    rw [List.mem_cons, not_or] at h
    by_cases hdot : first = '.'
    · simp [hdot]
    · have hslash : first ≠ '/' := Ne.symm h.1
      simpa [hdot, hslash] using ih h.2

/-- The simple name of a dotted path stands after the last slash. -/
theorem afterSlash_slashed {path : String} (h : '/' ∉ path.toList) :
    afterSlash (slashed path) = simpleName path := by
  have hreverse : '/' ∉ path.toList.reverse := fun hmem => h (List.mem_reverse.mp hmem)
  rw [afterSlash, slashed, String.toList_ofList, ← List.map_reverse, takeWhile_slashed hreverse,
    simpleName]

end ClassCompiler.Text
