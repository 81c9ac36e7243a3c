import ClassCompiler.Json.Tagged
import Mathlib.Logic.Basic
import Mathlib.Order.Basic

/-!
# Decoders that invert encoders

A decoder inverts an encoder if it takes back every encoded value whose JSON nests no deeper than
allowed, and refuses every other. The ways to build decoders preserve that, so a document type needs
only what is particular to it.
-/

namespace ClassCompiler.Json

variable {α : Type}

mutual

/-- How many arrays and objects of a value stand inside one another. -/
def nesting : Json → Nat
  | .array items => itemsNesting items + 1
  | .object members => membersNesting members + 1
  | .null | .bool _ | .int _ | .real | .text _ => 0

def itemsNesting : List Json → Nat
  | [] => 0
  | first :: rest => max first.nesting (itemsNesting rest)

def membersNesting : List (Option String × Json) → Nat
  | [] => 0
  | (_, value) :: rest => max value.nesting (membersNesting rest)

end

theorem itemsNesting_le {items : List Json} {depth : Nat} :
    itemsNesting items ≤ depth ↔ ∀ item ∈ items, item.nesting ≤ depth := by
  induction items with
  | nil => simp [itemsNesting]
  | cons first rest ih => rw [itemsNesting, Nat.max_le, ih, List.forall_mem_cons]

theorem membersNesting_le {members : List (Option String × Json)} {depth : Nat} :
    membersNesting members ≤ depth ↔ ∀ member ∈ members, member.2.nesting ≤ depth := by
  induction members with
  | nil => simp [membersNesting]
  | cons first rest ih => rw [membersNesting, Nat.max_le, ih, List.forall_mem_cons]

theorem nesting_array_le {items : List Json} {depth : Nat} :
    (Json.array items).nesting ≤ depth + 1 ↔ ∀ item ∈ items, item.nesting ≤ depth := by
  rw [nesting, Nat.add_le_add_iff_right, itemsNesting_le]

theorem nesting_ofMembers_le {members : List (String × Json)} {depth : Nat} :
    (ofMembers members).nesting ≤ depth + 1 ↔ ∀ member ∈ members, member.2.nesting ≤ depth := by
  rw [ofMembers, nesting, Nat.add_le_add_iff_right, membersNesting_le, List.forall_mem_map]

@[simp] theorem nesting_tagged_le {tag : String} {content : Json} {depth : Nat} :
    (tagged tag content).nesting ≤ depth + 1 ↔ content.nesting ≤ depth := by
  rw [tagged, nesting_ofMembers_le, List.forall_mem_singleton]

@[simp] theorem nesting_string (content : String) : (string content).nesting = 0 := by
  rw [string, nesting]

@[simp] theorem nesting_bool (value : Bool) : (Json.bool value).nesting = 0 := by rw [nesting]

@[simp] theorem nesting_int (value : Int) : (Json.int value).nesting = 0 := by rw [nesting]

/-- The value of a JSON value that may enter so many containers. -/
def within (depth : Nat) (json : Json) (value : α) : Option α :=
  if json.nesting ≤ depth then some value else none

theorem within_bind {β : Type} (depth : Nat) (json : Json) (value : α) (next : α → Option β) :
    (within depth json value).bind next = if json.nesting ≤ depth then next value else none := by
  rw [within]
  split <;> rfl

theorem within_map {β : Type} (depth : Nat) (json : Json) (value : α) (f : α → β) :
    (within depth json value).map f = within depth json (f value) := by
  rw [within, within]
  split <;> rfl

/-- What is tagged is one level further in. -/
theorem eq_within_tagged {decode : Decoder α} {tag : String} {content : Json} {value : α}
    (hzero : decode 0 (tagged tag content) = none)
    (hsucc : ∀ depth, decode (depth + 1) (tagged tag content) = within depth content value)
    (depth : Nat) :
    decode depth (tagged tag content) = within depth (tagged tag content) value := by
  cases depth with
  | zero => rw [hzero, within, if_neg (by simp [tagged, ofMembers, nesting])]
  | succ depth => simp only [hsucc, within, nesting_tagged_le]

/-- The decoder takes back what the encoder writes if it may go deep enough, and else nothing. -/
def Inverts (decode : Decoder α) (encode : α → Json) : Prop :=
  ∀ depth value, decode depth (encode value) = within depth (encode value) value

theorem inverts_flat {decode : Json → Option α} {encode : α → Json}
    (hflat : ∀ value, (encode value).nesting = 0)
    (h : ∀ value, decode (encode value) = some value) :
    Inverts (fun _ => decode) encode := by
  intro depth value
  rw [within, hflat, if_pos (Nat.zero_le depth)]
  exact h value

@[simp] theorem text?_string (content : String) : (string content).text? = some content := rfl

@[simp] theorem bool?_bool (value : Bool) : (Json.bool value).bool? = some value := rfl

@[simp] theorem tag?_string (depth : Nat) (tag : String) : tag? depth (string tag) = some tag := by
  simp [tag?, string]

@[simp] theorem orElse_some (missing : α) (decode : Json → Option α) (json : Json) :
    orElse missing decode (some json) = decode json := rfl

theorem int?_int {low high value : Int} (hlow : low ≤ value) (hhigh : value ≤ high) :
    (Json.int value).int? low high = some value := by
  simp [int?, hlow, hhigh]

@[simp] theorem int32?_toInt (value : Int32) : (Json.int value.toInt).int32? = some value := by
  have hlow := value.le_toInt
  have hhigh := value.toInt_lt
  rw [int32?, int?_int (by omega) (by omega), Option.map_some, Int32.ofInt_toInt]

theorem inverts_uint32 : Inverts (fun _ => uint32?) fun value => .nat value.toNat := by
  refine inverts_flat (fun value => nesting_int _) ?_
  intro value
  have hhigh := value.toNat_lt
  rw [uint32?, nat, int?_int (by omega) (by omega), Option.map_some, Int.toNat_natCast,
    UInt32.ofNat_toNat]

theorem inverts_uint16 : Inverts (fun _ => uint16?) fun value => .nat value.toNat := by
  refine inverts_flat (fun value => nesting_int _) ?_
  intro value
  have hhigh := value.toNat_lt
  rw [uint16?, nat, int?_int (by omega) (by omega), Option.map_some, Int.toNat_natCast,
    UInt16.ofNat_toNat]

variable {decode : Decoder α} {encode : α → Json}

/-- All results for a list, if each of its values fits. -/
theorem mapM_ite {β γ : Type} {f : β → Option γ} {g : α → β} {r : α → γ} {p : α → Prop}
    [DecidablePred p] (values : List α)
    (h : ∀ value ∈ values, f (g value) = if p value then some (r value) else none) :
    (values.map g).mapM f = if ∀ value ∈ values, p value then some (values.map r) else none := by
  induction values with
  | nil => simp
  | cons first rest ih =>
    obtain ⟨hfirst, hrest⟩ := List.forall_mem_cons.mp h
    rw [List.map_cons, List.mapM_cons, hfirst, ih hrest]
    by_cases hfits : p first
    · by_cases hall : ∀ value ∈ rest, p value
      · rw [if_pos hfits, if_pos hall, if_pos (List.forall_mem_cons.mpr ⟨hfits, hall⟩)]
        rfl
      · rw [if_pos hfits, if_neg hall, if_neg fun hboth => hall (List.forall_mem_cons.mp hboth).2]
        rfl
    · rw [if_neg hfits, if_neg fun hboth => hfits (List.forall_mem_cons.mp hboth).1]
      rfl

theorem list_eq_within {values : List α}
    (h : ∀ value ∈ values, ∀ depth, decode depth (encode value) = within depth (encode value) value)
    (depth : Nat) :
    list decode depth (.array (values.map encode)) =
      within depth (.array (values.map encode)) values := by
  cases depth with
  | zero => rfl
  | succ depth =>
    simp only [Json.list, mapM_ite values fun value hvalue => h value hvalue depth, within,
      nesting_array_le, List.forall_mem_map, List.map_id']

theorem Inverts.list (h : Inverts decode encode) :
    Inverts (list decode) fun values => .array (values.map encode) :=
  fun depth _ => list_eq_within (fun value _ depth => h depth value) depth

theorem Inverts.nullable (h : Inverts decode encode) (hnull : ∀ value, encode value ≠ .null) :
    Inverts (nullable decode) (ofOption encode) := by
  intro depth value
  cases value with
  | none => simp [Json.nullable, ofOption, within, nesting]
  | some value =>
    rw [ofOption, Json.nullable, h, within_map]
    exact hnull value

/-- The members of an object are read back in their order. -/
theorem Inverts.members (h : Inverts decode encode) :
    Inverts (members decode) fun entries =>
      ofMembers (entries.map fun entry => (entry.1, encode entry.2)) := by
  intro depth entries
  cases depth with
  | zero => rfl
  | succ depth =>
    simp only [within, nesting_ofMembers_le, List.forall_mem_map]
    rw [ofMembers, List.map_map, Json.members,
      mapM_ite (r := id) (p := fun entry => (encode entry.2).nesting ≤ depth) entries, List.map_id]
    intro entry _
    simp only [Function.comp_apply, h depth entry.2, within]
    split <;> rfl

/-- A member that is given once is found by its name. -/
theorem member?_ofMembers {members : List (String × Json)} (hnodup : (members.map (·.1)).Nodup)
    {member : String × Json} (hmember : member ∈ members) :
    member? (members.map fun member => (some member.1, member.2)) member.1 =
      some (some member.2) := by
  have hfilter : (members.map fun member => (some member.1, member.2)).filter
      (·.1 = some member.1) = [(some member.1, member.2)] := by
    induction members with
    | nil => cases hmember
    | cons first rest ih =>
      obtain ⟨hfirst, hrest⟩ := List.nodup_cons.mp hnodup
      rw [List.map_cons]
      rcases List.mem_cons.mp hmember with rfl | hmember
      · rw [List.filter_cons_of_pos (by simp), List.cons_eq_cons, List.filter_eq_nil_iff]
        refine ⟨rfl, List.forall_mem_map.mpr ?_⟩
        intro other hother hsame
        have hname : other.1 = member.1 := by simpa using hsame
        exact hfirst (List.mem_map.mpr ⟨other, hother, hname⟩)
      · have hne : first.1 ≠ member.1 :=
          fun hsame => hfirst (List.mem_map.mpr ⟨member, hmember, hsame.symm⟩)
        rw [List.filter_cons_of_neg (by simpa using hne), ih hrest hmember]
  rw [member?, hfilter]

/-- A record whose parts are all written has each of them under its name. -/
theorem parts_ofMembers {members : List (String × Json)} {names : List String}
    (hnames : members.map (·.1) = names) (hnodup : names.Nodup) :
    (ofMembers members).parts names = some (members.map fun member => some member.2) := by
  subst hnames
  have hknown : ¬ (members.map fun member => (some member.1, member.2)).any (·.1.isNone) := by
    simp
  rw [ofMembers, parts, if_neg hknown]
  have hall := mapM_ite (p := fun _ => True) members fun member hmember =>
    (member?_ofMembers hnodup hmember).trans (if_pos trivial).symm
  exact hall.trans (if_pos fun _ _ => trivial)

/-- The parts of a record are one level further in. -/
theorem eq_within_record (decode : Decoder α) {members : List (String × Json)} {value : α}
    (hzero : decode 0 (ofMembers members) = none)
    (hsucc : ∀ depth, decode (depth + 1) (ofMembers members) =
      if ∀ member ∈ members, member.2.nesting ≤ depth then some value else none)
    (depth : Nat) : decode depth (ofMembers members) = within depth (ofMembers members) value := by
  cases depth with
  | zero => rw [hzero, within, if_neg (by simp [ofMembers, nesting])]
  | succ depth => simp only [hsucc, within, nesting_ofMembers_le]

theorem inverts_record {members : α → List (String × Json)} (hzero : ∀ json, decode 0 json = none)
    (hsucc : ∀ depth value, decode (depth + 1) (ofMembers (members value)) =
      if ∀ member ∈ members value, member.2.nesting ≤ depth then some value else none) :
    Inverts decode fun value => ofMembers (members value) :=
  fun depth value => eq_within_record decode (hzero _) (hsucc · value) depth

end ClassCompiler.Json
