import Mathlib.Algebra.Group.Nat.Defs
import Mathlib.Data.List.Nodup
import RiscHart.Json.Syntax
import RiscHart.Schema

/-!
# What is known of a reader of documents

`DocumentReader.Documented` is what a reader of JSON documents is relied on for, each property by
its name: blanks make no difference, a size is a decimal number, a name is a string, and a record is
an object whose members may stand in any order. Nothing is known about how the reader works. From
the properties of records it follows what is read from any object with keys without escapes.
-/

namespace RiscHart

namespace Json

/-- Names of fields are lower-case letters and underscores. -/
def isName (cs : List Char) : Bool := cs.all fun c => c.isLower || c == '_'

/-- A number in decimal digits, without leading zeros. -/
def decimal (n : Nat) : Json := .number (Nat.toDigits 10 n)

/-- A well-formed member of an object whose key has no escapes. -/
structure PlainMember (m : List Char × Json) : Prop where
  quoted : QuotedText m.1
  plain : '\\' ∉ m.1
  wellFormed : m.2.WellFormed

/-! The keys of an object if they have no escapes, and its members by their keys. -/

def keys (members : List (List Char × Json)) : List String := members.map fun m => .ofList m.1

def byName (members : List (List Char × Json)) : List (String × Json) :=
  members.map fun m => (.ofList m.1, m.2)

def knownByName (names : List String) (members : List (List Char × Json)) :
    List (String × Json) :=
  (byName members).filter (·.1 ∈ names)

end Json

namespace Schema

variable {α : Type}

mutual

/-- How many objects may stand inside each other in a document. A name counts as one, since it can
be written as the key of an object. -/
def depth {α : Type} : Schema α → Nat
  | size => 0
  | oneOf _ => 1
  | record _ fields => fields.depth + 1

def Fields.depth {α : Type} : Fields α → Nat
  | .nil => 0
  | .cons _ schema _ rest => max schema.depth rest.depth

end

/-- So many objects inside each other are too many for a reader. -/
def depthLimit : Nat := 128

/-- The fields of a record that readers are made for. -/
structure Fields.Readable (fields : Fields α) : Prop where
  distinct : fields.names.Nodup
  plain : ∀ name ∈ fields.names, Json.isName name.toList
  shallow : fields.depth + 1 < depthLimit

end Schema

namespace DocumentReader

variable (reader : DocumentReader)

/-- What is read from a value that is written without blanks. -/
def value? {α : Type} (schema : Schema α) (v : Json) : Option α :=
  reader.read? schema (v.text fun _ => [])

/-- What is read for a field from the member with its name, or else its default. -/
def field? {α : Type} (name : String) (schema : Schema α) (default : α)
    (members : List (String × Json)) : Option α :=
  match members.lookup name with
  | none => some default
  | some v => reader.value? schema v

def fields? {α : Type} : Schema.Fields α → List (String × Json) → Option α
  | .nil, _ => some ()
  | .cons name schema default rest, members => do
    let a ← reader.field? name schema default members
    let b ← fields? rest members
    some (a, b)

/-- What the documentation of a reader says. Of records it is asked only where readers are made to
go, and nothing is said of keys with escapes. -/
structure Documented : Prop where
  /-- Blanks before, between and behind the tokens make no difference. -/
  blanks {α : Type} (schema : Schema α) {v : Json} (hv : v.WellFormed)
    (gap : Nat → List Json.Blank) : reader.read? schema (v.text gap) = reader.value? schema v
  /-- A decimal number is a size if it fits 64 bits, and no size otherwise. -/
  size (n : Nat) : reader.value? .size (.decimal n) = if n < 2 ^ 64 then some n else none
  /-- A string is looked up among the names. -/
  oneOf {α : Type} (table : List (String × α)) {raw : List Char} (hraw : Json.QuotedText raw)
    (hplain : '\\' ∉ raw) :
    reader.value? (.oneOf table) (.string raw) = table.lookup (String.ofList raw)
  /-- A member is ignored if there is no field with its name. -/
  unknown {α β : Type} (make : α → β) {fields : Schema.Fields α} (hfields : fields.Readable)
    {before after : List (List Char × Json)} {m : List Char × Json}
    (hmembers : ∀ m' ∈ before ++ m :: after, Json.PlainMember m')
    (hm : String.ofList m.1 ∉ fields.names) :
    reader.value? (.record make fields) (.object (before ++ m :: after)) =
      reader.value? (.record make fields) (.object (before ++ after))
  /-- A field that is given more than once is an error. -/
  repeated {α β : Type} (make : α → β) {fields : Schema.Fields α} (hfields : fields.Readable)
    {members : List (List Char × Json)} (hmembers : ∀ m ∈ members, Json.PlainMember m)
    {name : String} (hname : name ∈ fields.names)
    (hcount : 1 < (Json.keys members).count name) :
    reader.value? (.record make fields) (.object members) = none
  /-- A field is read from the member with its name, in whatever order they stand, and has its
  default if there is no such member. -/
  fields {α β : Type} (make : α → β) {fields : Schema.Fields α} (hfields : fields.Readable)
    {members : List (List Char × Json)} (hmembers : ∀ m ∈ members, Json.PlainMember m)
    (hknown : ∀ name ∈ Json.keys members, name ∈ fields.names)
    (hdistinct : (Json.keys members).Nodup) :
    reader.value? (.record make fields) (.object members) =
      (reader.fields? fields (Json.byName members)).map make

/-- A record with one field is read for that field. -/
theorem map_fst_fields?_single {α : Type} (name : String) (schema : Schema α) (default : α)
    (members : List (String × Json)) :
    (reader.fields? (.cons name schema default .nil) members).map Prod.fst =
      reader.field? name schema default members := by
  rw [fields?]
  cases reader.field? name schema default members <;> rfl

end DocumentReader

namespace Json

section Names

theorem not_special_of_isName {cs : List Char} (hcs : isName cs) {c : Char} (hc : c ∈ cs) :
    c ≠ '"' ∧ c ≠ '\\' ∧ 0x20 ≤ c.toNat := by
  have hname : c.isLower || c == '_' := List.all_eq_true.1 hcs c hc
  rcases Bool.or_eq_true_iff.1 hname with hlower | hunderscore
  · refine ⟨?_, ?_, ?_⟩
    · rintro rfl
      exact absurd hlower Bool.false_ne_true
    · rintro rfl
      exact absurd hlower Bool.false_ne_true
    · have hle : 'a'.val ≤ c.val := of_decide_eq_true (Bool.and_eq_true_iff.1 hlower).1
      exact Nat.le_trans (by decide) (UInt32.le_iff_toNat_le.1 hle)
  · rw [beq_iff_eq.1 hunderscore]
    decide

theorem quotedText_of_isName {cs : List Char} (hcs : isName cs) : QuotedText cs := by
  induction cs with
  | nil => exact .nil
  | cons c cs ih =>
    obtain ⟨hquote, hescape, hcontrol⟩ := not_special_of_isName hcs List.mem_cons_self
    have hrest : isName cs := (Bool.and_eq_true_iff.1 hcs).2
    exact .plain hquote hescape hcontrol (ih hrest)

theorem plain_of_isName {cs : List Char} (hcs : isName cs) : '\\' ∉ cs :=
  fun h => (not_special_of_isName hcs h).2.1 rfl

end Names

section Decimals

theorem WholeText.append_digit {cs : List Char} (hcs : WholeText cs) (hne : cs ≠ ['0']) {d : Char}
    (hd : d.isDigit) : WholeText (cs ++ [d]) := by
  cases hcs with
  | zero => exact absurd rfl hne
  | digits hc hzero hcs =>
    exact .digits hc hzero (List.forall_mem_append.2 ⟨hcs, List.forall_mem_singleton.2 hd⟩)

theorem wholeText_toDigits (n : Nat) : WholeText (Nat.toDigits 10 n) := by
  -- The last digit is split off. What stands before it is not a lone zero, or `n` would be a digit.
  induction n using Nat.strongRecOn with
  | ind n ih =>
    by_cases hn : n < 10
    · rw [Nat.toDigits_of_lt_base hn]
      by_cases hzero : n = 0
      · subst hzero
        exact .zero
      · have hdigit : ∀ n < 10, n ≠ 0 → n.digitChar.isDigit ∧ n.digitChar ≠ '0' := by decide
        obtain ⟨hn, hne⟩ := hdigit n hn hzero
        exact .digits hn hne (by simp)
    · have hne : Nat.toDigits 10 (n / 10) ≠ ['0'] := by
        intro h
        have hvalue : Nat.ofDigitChars 10 (Nat.toDigits 10 (n / 10)) 0 = n / 10 :=
          Nat.ofDigitChars_toDigits (by omega) (by omega)
        rw [h, show Nat.ofDigitChars 10 ['0'] 0 = 0 from rfl] at hvalue
        omega
      have hdigit : (n % 10).digitChar.isDigit := by
        have hmem : (n % 10).digitChar ∈ Nat.toDigits 10 n := by
          rw [Nat.toDigits_of_base_le (by omega) (by omega)]
          simp
        exact Nat.isDigit_of_mem_toDigits (by omega) (by omega) hmem
      rw [Nat.toDigits_of_base_le (by omega) (by omega)]
      exact (ih (n / 10) (by omega)).append_digit hne hdigit

theorem wellFormed_decimal (n : Nat) : (decimal n).WellFormed := by
  have htext : NumberText ([] ++ (Nat.toDigits 10 n ++ ([] ++ []))) :=
    .parts (.inl rfl) (wholeText_toDigits n) .absent .absent
  simp only [List.nil_append, List.append_nil] at htext
  exact .number htext

end Decimals

section Members

theorem forall_mem_of_append_cons {P : List Char × Json → Prop} {m : List Char × Json}
    {before after : List (List Char × Json)} (h : ∀ m' ∈ before ++ m :: after, P m') :
    ∀ m' ∈ before ++ after, P m' := by
  simp only [List.forall_mem_append, List.forall_mem_cons] at h ⊢
  exact ⟨h.1, h.2.2⟩

theorem wellFormed_object {members : List (List Char × Json)}
    (hmembers : ∀ m ∈ members, PlainMember m) : (object members).WellFormed :=
  .object (fun m hm => (hmembers m hm).quoted) fun m hm => (hmembers m hm).wellFormed

theorem map_fst_byName (members : List (List Char × Json)) :
    (byName members).map Prod.fst = keys members := List.map_map

theorem byName_filter (names : List String) (members : List (List Char × Json)) :
    byName (members.filter fun m => String.ofList m.1 ∈ names) = knownByName names members := by
  rw [knownByName, byName, byName, List.filter_map]
  rfl

end Members

end Json

namespace DocumentReader.Documented

variable {reader : DocumentReader} (hreader : reader.Documented) {α β : Type} {make : α → β}
  {fields : Schema.Fields α} (hfields : fields.Readable)
include hreader hfields

/-- Members that the record does not know can be left out. -/
theorem value?_filter (before : List (List Char × Json)) {after : List (List Char × Json)}
    (hmembers : ∀ m ∈ before ++ after, Json.PlainMember m) :
    reader.value? (.record make fields) (.object (before ++ after)) =
      reader.value? (.record make fields)
        (.object (before ++ after.filter fun m => String.ofList m.1 ∈ fields.names)) := by
  -- The members that have been looked at are moved to those before.
  induction after generalizing before with
  | nil => rfl
  | cons m after ih =>
    by_cases hm : String.ofList m.1 ∈ fields.names
    · have hmove : before ++ m :: after = (before ++ [m]) ++ after := by simp
      rw [hmove, ih (before ++ [m]) (hmove ▸ hmembers)]
      simp [hm]
    · rw [hreader.unknown make hfields hmembers hm,
        ih before (Json.forall_mem_of_append_cons hmembers)]
      simp [hm]

/-- A record is read from the members that it knows, unless one of them is repeated. -/
theorem value?_record {members : List (List Char × Json)}
    (hmembers : ∀ m ∈ members, Json.PlainMember m) :
    reader.value? (.record make fields) (.object members) =
      if ((Json.knownByName fields.names members).map Prod.fst).Nodup then
        (reader.fields? fields (Json.knownByName fields.names members)).map make
      else none := by
  let known := members.filter fun m => String.ofList m.1 ∈ fields.names
  have hfilter : reader.value? (.record make fields) (.object members) =
      reader.value? (.record make fields) (.object known) :=
    hreader.value?_filter hfields [] hmembers
  have hplain : ∀ m ∈ known, Json.PlainMember m :=
    fun m hm => hmembers m (List.mem_of_mem_filter hm)
  have hnames : ∀ name ∈ Json.keys known, name ∈ fields.names :=
    List.forall_mem_map.2 fun m hm => of_decide_eq_true (List.mem_filter.1 hm).2
  rw [hfilter, ← Json.byName_filter, Json.map_fst_byName]
  by_cases hnodup : (Json.keys known).Nodup
  · rw [if_pos hnodup]
    exact hreader.fields make hfields hplain hnames hnodup
  · rw [if_neg hnodup]
    obtain ⟨name, hcount⟩ : ∃ name, 1 < (Json.keys known).count name := by
      simpa [List.nodup_iff_count_le_one] using hnodup
    have hname : name ∈ Json.keys known := List.count_pos_iff.1 (by omega)
    exact hreader.repeated make hfields hplain (hnames name hname) hcount

end DocumentReader.Documented

end RiscHart
