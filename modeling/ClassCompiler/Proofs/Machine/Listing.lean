/-!
# Listings

A listing is code as it is written down: labels and instructions in one sequence. A label takes no
room. It stands for the address of the instruction after it, which is the number of instructions
before it.
-/

namespace ClassCompiler.Machine

/-- A sequence of labels and instructions. -/
abbrev Listing (ι : Type) := List (String ⊕ ι)

namespace Listing

variable {ι : Type}

def instrs (listing : Listing ι) : List ι := listing.filterMap Sum.getRight?

def labels (listing : Listing ι) : List String := listing.filterMap Sum.getLeft?

def size (listing : Listing ι) : Nat := listing.instrs.length

def address? (label : String) : Listing ι → Option Nat
  | [] => none
  | .inl name :: rest => if name = label then some 0 else address? label rest
  | .inr _ :: rest => (address? label rest).map (· + 1)

@[simp] theorem instrs_append (left right : Listing ι) :
    instrs (left ++ right) = instrs left ++ instrs right := List.filterMap_append

@[simp] theorem labels_append (left right : Listing ι) :
    labels (left ++ right) = labels left ++ labels right := List.filterMap_append

@[simp] theorem size_append (left right : Listing ι) :
    size (left ++ right) = size left + size right := by
  simp [size]

@[simp] theorem instrs_nil : instrs ([] : Listing ι) = [] := rfl

@[simp] theorem labels_nil : labels ([] : Listing ι) = [] := rfl

@[simp] theorem size_nil : size ([] : Listing ι) = 0 := rfl

@[simp] theorem instrs_label (name : String) (rest : Listing ι) :
    instrs (.inl name :: rest) = instrs rest := rfl

@[simp] theorem instrs_instr (instr : ι) (rest : Listing ι) :
    instrs (.inr instr :: rest) = instr :: instrs rest := rfl

@[simp] theorem labels_label (name : String) (rest : Listing ι) :
    labels (.inl name :: rest) = name :: labels rest := rfl

@[simp] theorem labels_instr (instr : ι) (rest : Listing ι) :
    labels (.inr instr :: rest) = labels rest := rfl

@[simp] theorem size_label (name : String) (rest : Listing ι) :
    size (.inl name :: rest) = size rest := rfl

@[simp] theorem size_instr (instr : ι) (rest : Listing ι) :
    size (.inr instr :: rest) = size rest + 1 := rfl

/-- A label is found where it first stands. -/
theorem address?_append_label {label : String} {before : Listing ι} (after : Listing ι)
    (fresh : label ∉ labels before) :
    address? label (before ++ .inl label :: after) = some (size before) := by
  induction before with
  | nil => simp [address?]
  | cons first rest ih =>
    cases first with
    | inl name =>
      simp only [labels_label, List.mem_cons, not_or] at fresh
      have hne : name ≠ label := fun heq => fresh.1 heq.symm
      simpa [address?, hne] using ih fresh.2
    | inr instr =>
      have hrest := ih fresh
      simp [address?, hrest]

/-- Where every label occurs once, a label stands for the address at which it occurs. -/
theorem address?_eq {label : String} {before after listing : Listing ι}
    (distinct : (labels listing).Nodup) (at_ : listing = before ++ .inl label :: after) :
    address? label listing = some (size before) := by
  subst at_
  refine address?_append_label after ?_
  intro hmem
  rw [labels_append, labels_label, List.nodup_append] at distinct
  exact distinct.2.2 label hmem label List.mem_cons_self rfl

theorem instrs_getElem? {before after listing : Listing ι} {instr : ι}
    (at_ : listing = before ++ .inr instr :: after) :
    (instrs listing)[size before]? = some instr := by
  subst at_
  simp [size]

/-- A part of the code that begins at an address. -/
def Stands (code : Listing ι) (address : Nat) (part : Listing ι) : Prop :=
  ∃ before after, code = before ++ part ++ after ∧ before.size = address

namespace Stands

variable {code part part' : Listing ι} {address : Nat} {instr : ι} {label : String}

theorem left (h : Stands code address (part ++ part')) : Stands code address part := by
  obtain ⟨before, after, hcode, hsize⟩ := h
  exact ⟨before, part' ++ after, by simp [hcode], hsize⟩

theorem right (h : Stands code address (part ++ part')) :
    Stands code (address + part.size) part' := by
  obtain ⟨before, after, hcode, hsize⟩ := h
  exact ⟨before ++ part, after, by simp [hcode], by simp [hsize]⟩

theorem instr_eq (h : Stands code address (.inr instr :: part)) :
    code.instrs[address]? = some instr := by
  obtain ⟨before, after, hcode, rfl⟩ := h
  have hplace : code = before ++ .inr instr :: (part ++ after) := by simp [hcode]
  exact instrs_getElem? hplace

theorem next (h : Stands code address (.inr instr :: part)) : Stands code (address + 1) part := by
  obtain ⟨before, after, hcode, rfl⟩ := h
  exact ⟨before ++ [.inr instr], after, by simp [hcode], by simp⟩

theorem past_label (h : Stands code address (.inl label :: part)) : Stands code address part := by
  obtain ⟨before, after, hcode, rfl⟩ := h
  exact ⟨before ++ [.inl label], after, by simp [hcode], by simp⟩

theorem address?_eq (h : Stands code address (.inl label :: part))
    (distinct : code.labels.Nodup) : code.address? label = some address := by
  obtain ⟨before, after, hcode, rfl⟩ := h
  have hplace : code = before ++ .inl label :: (part ++ after) := by simp [hcode]
  exact Listing.address?_eq distinct hplace

end Stands

end Listing

end ClassCompiler.Machine
