import ClassCompiler.Proofs.NameMap
import ClassCompiler.Proofs.Source.Overloads

/-!
# Methods and their declarations

The methods of a table stand under their signatures, and the declaration of a method looks for its
own. A signature tells its method, so a method only takes the place of one that has the same name
and the same types, and a declaration cannot come upon another method of its name.
-/

namespace ClassCompiler.Source

open Text (IsIdentifier)

namespace SymbolTable

/-- Every method of the table stands under its own signature and can be told from others. -/
def Keyed (table : SymbolTable) : Prop :=
  ∀ entry ∈ table.methods.entries, entry.1 = entry.2.signature ∧ entry.2.WellNamed

variable {table : SymbolTable} {scope : Scope}

theorem keyed_of_methods_eq_empty (h : table.methods = ∅) : table.Keyed := by
  intro entry hentry
  rw [h] at hentry
  exact absurd hentry List.not_mem_nil

theorem Keyed.addMethod (keyed : table.Keyed) (named : scope.WellNamed) :
    (table.addMethod scope).Keyed := by
  intro entry hentry
  rcases NameMap.mem_place hentry with rfl | hold
  · exact ⟨rfl, named⟩
  · exact keyed entry hold

theorem Keyed.addMethods {added : List Scope} (keyed : table.Keyed)
    (named : ∀ scope ∈ added, scope.WellNamed) : (table.addMethods added).Keyed := by
  induction added generalizing table with
  | nil => exact keyed
  | cons first rest ih =>
    obtain ⟨hfirst, hrest⟩ := List.forall_mem_cons.mp named
    exact ih (keyed.addMethod hfirst) hrest

/-- A method takes the place of the one with its name and its types, if there is one. -/
theorem Keyed.entries_addMethod_perm (keyed : table.Keyed) (named : scope.WellNamed) :
    (table.addMethod scope).methods.entries.Perm ((scope.signature, scope) ::
      table.methods.entries.filter (!·.2.accepts scope.name (scope.parameters.map (·.ty)))) := by
  have hfilter : table.methods.entries.filter (·.1 ≠ scope.signature) =
      table.methods.entries.filter (!·.2.accepts scope.name (scope.parameters.map (·.ty))) := by
    refine List.filter_congr ?_
    intro entry hentry
    obtain ⟨hkey, hnamed⟩ := keyed entry hentry
    have hsame := Scope.signature_eq_iff hnamed named
    rw [← hkey] at hsame
    rw [Bool.eq_iff_iff, decide_eq_true_eq, Bool.not_eq_true', ← Bool.not_eq_true, ← hsame]
  rw [← hfilter]
  exact table.methods.entries_insert_perm scope.signature scope

/-- Under a signature there is the method that has the name and the types, and no other. -/
theorem Keyed.method?_signature_iff {name : String} {tys : List Ty} (keyed : table.Keyed)
    (hname : IsIdentifier name) (htys : ∀ ty ∈ tys, ty.WellNamed) :
    table.method? (signature name tys) = some scope ↔
      scope ∈ table.methods.values ∧ scope.name = name ∧ scope.parameters.map (·.ty) = tys := by
  rw [method?, NameMap.get?_eq_some_iff]
  constructor
  · intro hentry
    obtain ⟨hkey, named⟩ := keyed _ hentry
    obtain ⟨hnames, htypes⟩ :=
      signature_inj hname named.1 htys (List.forall_mem_map.mpr named.2) hkey
    exact ⟨List.mem_map_of_mem hentry, hnames.symm, htypes.symm⟩
  · rintro ⟨hscope, rfl, rfl⟩
    obtain ⟨entry, hentry, rfl⟩ := List.mem_map.mp hscope
    have hkey : entry.1 = entry.2.signature := (keyed entry hentry).1
    rw [← Scope.signature, ← hkey]
    exact hentry

/-- Signatures tell methods apart. With identifiers for names, and arrays nested as deep as may be,
two signatures are the same only if the names are and the types are. So let every method of a table
stand under its own signature, as in a table without methods. This remains so whatever is added. A
method that is added stands beside those that differ from it in name or types, and takes the place
of the one that does not. And a declaration finds a method by its signature exactly if the table has
that method and it is the one with the name and the types of the declaration. -/
theorem signatures_tell_methods :
    (∀ (name name' : String) (tys tys' : List Ty), IsIdentifier name → IsIdentifier name' →
      (∀ ty ∈ tys, ty.WellNamed) → (∀ ty ∈ tys', ty.WellNamed) →
      signature name tys = signature name' tys' → name = name' ∧ tys = tys') ∧
    ∀ table : SymbolTable, table.Keyed →
      (∀ added : List Scope, (∀ scope ∈ added, scope.WellNamed) → (table.addMethods added).Keyed) ∧
      (∀ scope : Scope, scope.WellNamed →
        (table.addMethod scope).methods.entries.Perm ((scope.signature, scope) ::
          table.methods.entries.filter
            (!·.2.accepts scope.name (scope.parameters.map (·.ty))))) ∧
      ∀ method : Method, IsIdentifier method.name →
        (∀ parameter ∈ method.parameters, parameter.ty.WellNamed) →
        ∀ scope, table.method? method.signature = some scope ↔
          scope ∈ table.methods.values ∧ scope.name = method.name ∧
            scope.parameters.map (·.ty) = method.parameters.map (·.ty) := by
  refine ⟨?_, ?_⟩
  · intro name name' tys tys' hname hname' htys htys' h
    exact signature_inj hname hname' htys htys' h
  · intro table keyed
    refine ⟨?_, ?_, ?_⟩
    · intro added named
      exact keyed.addMethods named
    · intro scope named
      exact keyed.entries_addMethod_perm named
    · intro method hname hparameters scope
      exact keyed.method?_signature_iff hname (List.forall_mem_map.mpr hparameters)

/-- Methods whose signatures differ in a bracket, in a comma or in the word before them. -/
def marking : List Scope :=
  [⟨"mark", .void, [⟨"cell", .int⟩], []⟩,
    ⟨"mark", .void, [⟨"row", .array .int⟩], []⟩,
    ⟨"mark", .void, [⟨"rows", .array (.array .int)⟩], []⟩,
    ⟨"mark", .void, [⟨"row", .array .int⟩, ⟨"piece", .named "Piece"⟩], []⟩,
    ⟨"marks", .int, [⟨"row", .array .int⟩], []⟩]

def remarking : Scope := ⟨"mark", .boolean, [⟨"cells", .array .int⟩], [⟨"last", .int⟩]⟩

def markingTable : SymbolTable := ⟨"Board", none, ["game.Piece"], [], ∅⟩

def remark : Method := ⟨"mark", false, [⟨"cells", .array .int⟩], .boolean, [], some (.bool true)⟩

/-- The other method takes the place of the second one and leaves the four that share its name or
its types. The declaration finds it, and no longer the second one. -/
theorem signatures_tell_marking :
    signature "mark" [.array (.array .int)] ≠ signature "mark" [.array .int] ∧
      ((markingTable.addMethods marking).addMethod remarking).methods.entries.Perm
        ((remarking.signature, remarking) :: (marking.eraseIdx 1).map
          fun scope => (scope.signature, scope)) ∧
      (markingTable.addMethods (marking ++ [remarking])).method? remark.signature =
        some remarking := by
  obtain ⟨injective, tables⟩ := signatures_tell_methods
  have named : ∀ scope ∈ marking ++ [remarking], scope.WellNamed := by decide +kernel
  obtain ⟨hmarking, hremarking⟩ := List.forall_mem_append.mp named
  obtain ⟨run, _⟩ := tables markingTable (keyed_of_methods_eq_empty rfl)
  refine ⟨?_, ?_, ?_⟩
  · intro hsame
    obtain ⟨_, htys⟩ := injective "mark" "mark" _ _ (by decide +kernel) (by decide +kernel)
      (by decide +kernel) (by decide +kernel) hsame
    exact absurd htys (by decide)
  · obtain ⟨_, add, _⟩ := tables _ (run marking hmarking)
    refine (add remarking (hremarking remarking List.mem_cons_self)).trans ?_
    decide +kernel
  · obtain ⟨_, _, find⟩ := tables _ (run _ named)
    refine (find remark (by decide +kernel) (by decide +kernel) remarking).mpr ?_
    decide +kernel

end SymbolTable

end ClassCompiler.Source
