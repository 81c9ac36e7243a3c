/-!
# Numbered names

A numbered name is a stem followed by a number. If stems do not end in a digit, a numbered name
tells its stem and its number.
-/

namespace ClassCompiler.Text

def IsStem (text : String) : Prop := ∀ char ∈ text.toList.getLast?, char.isDigit = false

instance (text : String) : Decidable (IsStem text) :=
  match h : text.toList.getLast? with
  | none => isTrue fun _ hchar => nomatch h.symm.trans hchar
  | some last =>
    if hlast : last.isDigit = false then
      isTrue fun _ hchar => Option.some.inj (h.symm.trans hchar) ▸ hlast
    else isFalse fun hstem => hlast (hstem last h)

theorem toDigits_inj {m n : Nat} (h : Nat.toDigits 10 m = Nat.toDigits 10 n) : m = n := by
  have hnumbers := congrArg (Nat.ofDigitChars 10 · 0) h
  simpa only [Nat.ofDigitChars_ten_toDigits] using hnumbers

/-- The digits at the end of a numbered name are its number. -/
theorem takeWhile_isDigit_reverse {stem : String} (hstem : IsStem stem) (n : Nat) :
    (stem ++ toString n).toList.reverse.takeWhile Char.isDigit = (Nat.toDigits 10 n).reverse := by
  have hdigits : ∀ char ∈ (Nat.toDigits 10 n).reverse, char.isDigit = true := by
    intro char hchar
    exact Nat.isDigit_of_mem_toDigits (by decide) (by decide) (List.mem_reverse.mp hchar)
  have hrest : stem.toList.reverse.takeWhile Char.isDigit = [] := by
    cases hlast : stem.toList.reverse with
    | nil => rfl
    | cons last rest =>
      have hget : stem.toList.getLast? = some last := by
        rw [← List.head?_reverse, hlast]
        rfl
      rw [List.takeWhile_cons_of_neg]
      simpa using hstem last hget
  rw [String.toList_append, Nat.toString_eq_ofList_toDigits, String.toList_ofList,
    List.reverse_append, List.takeWhile_append_of_pos hdigits, hrest, List.append_nil]

theorem numbered_inj {stem stem' : String} (hstem : IsStem stem) (hstem' : IsStem stem')
    {m n : Nat} (h : stem ++ toString m = stem' ++ toString n) : stem = stem' ∧ m = n := by
  have hdigits := takeWhile_isDigit_reverse hstem m
  rw [h, takeWhile_isDigit_reverse hstem' n] at hdigits
  obtain rfl := toDigits_inj (List.reverse_inj.mp hdigits).symm
  exact ⟨String.append_left_inj _ |>.mp h, rfl⟩

end ClassCompiler.Text
