import RiscHart.Config.Document
import RiscHart.Proofs.DocumentReaders
import RiscHart.Proofs.JsonDocuments

/-!
# Configuration documents and what is read from them

A configuration document is built from its members, in any order: sections with their fields, and
members with other keys. A documented reader gives the configuration that the fields name. What the
unknown members hold, where they stand and which blanks there are makes no difference, and a field
or section that is given twice makes the text unreadable before anything that it says is judged.
-/

namespace RiscHart

/-- A member of an object in which only the keys in `names` are known. -/
structure UnknownMember (names : List String) where
  key : List Char
  value : Json
  quoted : Json.QuotedText key
  plain : '\\' ∉ key
  unknown : String.ofList key ∉ names
  wellFormed : value.WellFormed

theorem UnknownMember.plainMember {names : List String} (m : UnknownMember names) :
    Json.PlainMember (m.key, m.value) := ⟨m.quoted, m.plain, m.wellFormed⟩

/-- A member of a section whose one field is called `field` and has values of type `α`. -/
inductive SectionMember (field : String) (α : Type) where
  | value (a : α)
  | unknown (m : UnknownMember [field])

abbrev MemorySection := List (SectionMember "size" Nat)

abbrev RegisterSection := List (SectionMember "zero_register" ZeroPolicy)

inductive DocumentMember where
  | memory (members : MemorySection)
  | registers (members : RegisterSection)
  | unknown (m : UnknownMember ["memory", "registers"])

abbrev ConfigDocument := List DocumentMember

def ZeroPolicy.setting : ZeroPolicy → String
  | hardwired => "hardwired"
  | writable => "writable"

def ZeroPolicy.json (p : ZeroPolicy) : Json := .string p.setting.toList

namespace SectionMember

variable {field : String} {α : Type}

def value? : SectionMember field α → Option α
  | value a => some a
  | unknown _ => none

def member (write : α → Json) : SectionMember field α → List Char × Json
  | value a => (field.toList, write a)
  | unknown m => (m.key, m.value)

/-- The values that the members of a section give to its field. -/
def values (ms : List (SectionMember field α)) : List α := ms.filterMap value?

def json (write : α → Json) (ms : List (SectionMember field α)) : Json :=
  .object (ms.map (member write))

/-- Some section, or the field in it, is given twice. -/
def Repeated (sections : List (List (SectionMember field α))) : Prop :=
  1 < sections.length ∨ ∃ ms ∈ sections, 1 < (values ms).length

instance (sections : List (List (SectionMember field α))) : Decidable (Repeated sections) :=
  inferInstanceAs (Decidable (_ ∨ _))

end SectionMember

namespace DocumentMember

def member : DocumentMember → List Char × Json
  | memory ms => ("memory".toList, SectionMember.json Json.decimal ms)
  | registers ms => ("registers".toList, SectionMember.json ZeroPolicy.json ms)
  | unknown m => (m.key, m.value)

def memory? : DocumentMember → Option MemorySection
  | memory ms => some ms
  | _ => none

def registers? : DocumentMember → Option RegisterSection
  | registers ms => some ms
  | _ => none

end DocumentMember

namespace ConfigDocument

def json (d : ConfigDocument) : Json := .object (d.map DocumentMember.member)

/-- The text of a document with `gap i` before its `i`-th token. -/
def text (d : ConfigDocument) (gap : Nat → List Json.Blank) : String := (json d).text gap

def memorySections (d : ConfigDocument) : List MemorySection := d.filterMap DocumentMember.memory?

def registerSections (d : ConfigDocument) : List RegisterSection :=
  d.filterMap DocumentMember.registers?

/-- A known key stands twice in its object. -/
def Repeats (d : ConfigDocument) : Prop :=
  SectionMember.Repeated (memorySections d) ∨ SectionMember.Repeated (registerSections d)

instance (d : ConfigDocument) : Decidable (Repeats d) := inferInstanceAs (Decidable (_ ∨ _))

/-- The size of the memory in the document, if there is one. -/
def size? (d : ConfigDocument) : Option Nat :=
  ((memorySections d).flatMap SectionMember.values).head?

def policy? (d : ConfigDocument) : Option ZeroPolicy :=
  ((registerSections d).flatMap SectionMember.values).head?

end ConfigDocument

namespace Json

/-- What a record with the given field names takes from a member without escapes in its key. -/
def fieldOf? (names : List String) (m : List Char × Json) : Option (String × Json) :=
  if String.ofList m.1 ∈ names then some (String.ofList m.1, m.2) else none

theorem fieldOf?_toList {names : List String} {name : String} (hname : name ∈ names) (v : Json) :
    fieldOf? names (name.toList, v) = some (name, v) := by
  simp [fieldOf?, hname]

/-- The members that a record knows are found one by one. -/
theorem knownByName_map {β : Type} {names : List String} {member : β → List Char × Json}
    {known? : β → Option (String × Json)} (hknown : ∀ b, fieldOf? names (member b) = known? b)
    (bs : List β) : knownByName names (bs.map member) = bs.filterMap known? := by
  induction bs with
  | nil => rfl
  | cons b bs ih =>
    rw [List.filterMap_cons, ← ih, ← hknown b]
    by_cases hb : String.ofList (member b).1 ∈ names <;>
      simp [knownByName, byName, fieldOf?, hb]

end Json

theorem Schema.readable_single {α : Type} {name : String} (hname : Json.isName name.toList)
    {schema : Schema α} (hdepth : schema.depth + 1 < depthLimit) (default : α) :
    (Fields.cons name schema default .nil).Readable where
  distinct := List.nodup_singleton name
  plain := List.forall_mem_singleton.2 hname
  shallow := by simpa [Fields.depth] using hdepth

theorem Config.readable_fields : Config.fields.Readable where
  distinct := by decide
  plain := by decide
  shallow := by decide

namespace ZeroPolicy

theorem isName_setting (p : ZeroPolicy) : Json.isName p.setting.toList := by cases p <;> rfl

theorem wellFormed_json (p : ZeroPolicy) : p.json.WellFormed :=
  .string (Json.quotedText_of_isName p.isName_setting)

end ZeroPolicy

namespace SectionMember

variable {field : String} {α : Type}

theorem fieldOf?_member (write : α → Json) (m : SectionMember field α) :
    Json.fieldOf? [field] (m.member write) = m.value?.map fun a => (field, write a) := by
  cases m with
  | value a => exact Json.fieldOf?_toList (List.mem_singleton_self field) _
  | unknown m => exact if_neg m.unknown

theorem knownByName_member (write : α → Json) (ms : List (SectionMember field α)) :
    Json.knownByName [field] (ms.map (member write)) =
      (values ms).map fun a => (field, write a) :=
  (Json.knownByName_map (fieldOf?_member write) ms).trans List.map_filterMap.symm

variable {write : α → Json}

theorem plainMember (hwrite : ∀ a, (write a).WellFormed) (hfield : Json.isName field.toList)
    (m : SectionMember field α) : Json.PlainMember (m.member write) := by
  cases m with
  | value a => exact ⟨Json.quotedText_of_isName hfield, Json.plain_of_isName hfield, hwrite a⟩
  | unknown m => exact m.plainMember

theorem wellFormed_json (hwrite : ∀ a, (write a).WellFormed) (hfield : Json.isName field.toList)
    (ms : List (SectionMember field α)) : (json write ms).WellFormed :=
  Json.wellFormed_object (List.forall_mem_map.2 fun m _ => m.plainMember hwrite hfield)

variable {reader : DocumentReader} (hreader : reader.Documented)
  (hwrite : ∀ a, (write a).WellFormed) (hfield : Json.isName field.toList) (schema : Schema α)
  (hdepth : schema.depth + 1 < Schema.depthLimit) (default : α)
include hreader hwrite hfield hdepth

/-- A section is read for the value of its field. -/
theorem value?_json (ms : List (SectionMember field α)) :
    reader.value? (.single field schema default) (json write ms) =
      if 1 < (values ms).length then none
      else match (values ms).head? with
        | none => some default
        | some a => reader.value? schema (write a) := by
  have hkeys : ((values ms).map fun a => (field, write a)).map Prod.fst =
      List.replicate (values ms).length field := by
    rw [List.map_map]
    exact List.map_const' ..
  have hnames : (Schema.Fields.cons field schema default .nil).names = [field] := rfl
  have hplain : ∀ m ∈ ms.map (member write), Json.PlainMember m :=
    List.forall_mem_map.2 fun m _ => m.plainMember hwrite hfield
  rw [Schema.single, json,
    hreader.value?_record (Schema.readable_single hfield hdepth default) hplain, hnames,
    knownByName_member, hkeys, reader.map_fst_fields?_single]
  -- One value is read, two of them are two members of the same name.
  match values ms with
  | [] => rfl
  | [a] => simp [DocumentReader.field?]
  | _ :: _ :: _ => simp

/-- A section that stands at most once is read, or its field has the default. -/
theorem field?_eq {root : List (String × Json)} {name : String}
    {sections : List (List (SectionMember field α))} (hlength : sections.length ≤ 1)
    (hroot : root.lookup name = sections.head?.map (json write)) :
    reader.field? name (.single field schema default) default root =
      if Repeated sections then none
      else match (sections.flatMap values).head? with
        | none => some default
        | some a => reader.value? schema (write a) := by
  match sections, hlength with
  | [], _ =>
    rw [DocumentReader.field?, hroot]
    rfl
  | [ms], _ =>
    have hrepeated : Repeated [ms] ↔ 1 < (values ms).length := by simp [Repeated]
    simp only [hrepeated, List.flatMap_singleton, DocumentReader.field?, hroot, List.head?_cons,
      Option.map_some]
    exact value?_json hreader hwrite hfield schema hdepth default ms

end SectionMember

namespace DocumentMember

def known? : DocumentMember → Option (String × Json)
  | memory ms => some ("memory", SectionMember.json Json.decimal ms)
  | registers ms => some ("registers", SectionMember.json ZeroPolicy.json ms)
  | unknown _ => none

theorem fieldOf?_member (m : DocumentMember) :
    Json.fieldOf? ["memory", "registers"] m.member = m.known? := by
  cases m with
  | memory ms => exact Json.fieldOf?_toList (by simp) _
  | registers ms => exact Json.fieldOf?_toList (by simp) _
  | unknown m => exact if_neg m.unknown

theorem plainMember (m : DocumentMember) : Json.PlainMember m.member := by
  cases m with
  | memory ms =>
    exact ⟨Json.quotedText_of_isName rfl, Json.plain_of_isName rfl,
      SectionMember.wellFormed_json Json.wellFormed_decimal rfl ms⟩
  | registers ms =>
    exact ⟨Json.quotedText_of_isName rfl, Json.plain_of_isName rfl,
      SectionMember.wellFormed_json ZeroPolicy.wellFormed_json rfl ms⟩
  | unknown m => exact m.plainMember

end DocumentMember

namespace ConfigDocument

def known (d : ConfigDocument) : List (String × Json) := d.filterMap DocumentMember.known?

variable (d : ConfigDocument)

theorem lookup_memory :
    (known d).lookup "memory" =
      (memorySections d).head?.map (SectionMember.json Json.decimal) := by
  induction d with
  | nil => rfl
  | cons m d ih =>
    cases m with
    | memory ms => rfl
    | registers ms => exact ih
    | unknown m => exact ih

theorem lookup_registers :
    (known d).lookup "registers" =
      (registerSections d).head?.map (SectionMember.json ZeroPolicy.json) := by
  induction d with
  | nil => rfl
  | cons m d ih =>
    cases m with
    | memory ms => exact ih
    | registers ms => rfl
    | unknown m => exact ih

/-- Known keys are counted as sections. -/
theorem count_known (name : String) :
    ((known d).map (·.1)).count name =
      if name = "memory" then (memorySections d).length
      else if name = "registers" then (registerSections d).length else 0 := by
  induction d with
  | nil => split_ifs <;> rfl
  | cons m d ih =>
    cases m with
    | memory ms =>
      have hknown : (known (.memory ms :: d)).map (·.1) = "memory" :: (known d).map (·.1) := rfl
      have hmemory : memorySections (.memory ms :: d) = ms :: memorySections d := rfl
      have hregisters : registerSections (.memory ms :: d) = registerSections d := rfl
      rw [hknown, List.count_cons, ih, hmemory, hregisters]
      by_cases hname : name = "memory"
      · simp [hname]
      · simp [hname, Ne.symm hname]
    | registers ms =>
      have hknown : (known (.registers ms :: d)).map (·.1) = "registers" :: (known d).map (·.1) :=
        rfl
      have hmemory : memorySections (.registers ms :: d) = memorySections d := rfl
      have hregisters : registerSections (.registers ms :: d) = ms :: registerSections d := rfl
      rw [hknown, List.count_cons, ih, hmemory, hregisters]
      by_cases hname : name = "registers"
      · simp [hname]
      · simp [hname, Ne.symm hname]
    | unknown m => exact ih

theorem nodup_known :
    ((known d).map (·.1)).Nodup ↔
      (memorySections d).length ≤ 1 ∧ (registerSections d).length ≤ 1 := by
  rw [List.nodup_iff_count_le_one]
  simp only [count_known]
  constructor
  · intro h
    exact ⟨h "memory", h "registers"⟩
  · intro ⟨hmemory, hregisters⟩ name
    split_ifs
    · exact hmemory
    · exact hregisters
    · exact Nat.zero_le 1

theorem plainMember : ∀ m ∈ d.map DocumentMember.member, Json.PlainMember m :=
  List.forall_mem_map.2 fun m _ => m.plainMember

section Reading

variable {reader : DocumentReader} (hreader : reader.Documented)
include hreader

theorem memorySize?_known (hlength : (memorySections d).length ≤ 1) :
    reader.field? "memory" Config.memorySchema 65536 (known d) =
      if SectionMember.Repeated (memorySections d) ∨ 2 ^ 64 ≤ (size? d).getD 65536 then none
      else some ((size? d).getD 65536) := by
  have hfield := SectionMember.field?_eq hreader Json.wellFormed_decimal rfl .size (by decide)
    65536 hlength (lookup_memory d)
  rw [Config.memorySchema, hfield, ← size?]
  by_cases hrepeated : SectionMember.Repeated (memorySections d)
  · rw [if_pos hrepeated, if_pos (.inl hrepeated)]
  · simp only [hrepeated, if_false, false_or]
    cases hsize : size? d with
    | none => rfl
    | some n => simp only [hreader.size, Option.getD_some, ← Nat.not_lt, ite_not]

theorem zeroPolicy?_known (hlength : (registerSections d).length ≤ 1) :
    reader.field? "registers" Config.registerSchema .hardwired (known d) =
      if SectionMember.Repeated (registerSections d) then none
      else some ((policy? d).getD .hardwired) := by
  have hfield := SectionMember.field?_eq hreader ZeroPolicy.wellFormed_json rfl ZeroPolicy.schema
    (by decide) .hardwired hlength (lookup_registers d)
  rw [Config.registerSchema, hfield, ← policy?]
  congr 1
  cases hpolicy : policy? d with
  | none => rfl
  | some p =>
    have hname := p.isName_setting
    refine (hreader.oneOf _ (Json.quotedText_of_isName hname) (Json.plain_of_isName hname)).trans ?_
    rw [String.ofList_toList]
    cases p <;> rfl

theorem value?_json :
    reader.value? Config.schema (json d) =
      if Repeats d ∨ 2 ^ 64 ≤ (size? d).getD 65536 then none
      else some
        { memorySize := (size? d).getD 65536, zero := (policy? d).getD .hardwired } := by
  have hnames : Config.fields.names = ["memory", "registers"] := rfl
  have hknown : Json.knownByName ["memory", "registers"] (d.map DocumentMember.member) = known d :=
    Json.knownByName_map DocumentMember.fieldOf?_member d
  rw [Config.schema, json, hreader.value?_record Config.readable_fields (plainMember d), hnames,
    hknown, if_congr (nodup_known d) rfl rfl]
  by_cases hlength : (memorySections d).length ≤ 1 ∧ (registerSections d).length ≤ 1
  · have hmemory := memorySize?_known d hreader hlength.1
    have hzero := zeroPolicy?_known d hreader hlength.2
    rw [if_pos hlength, Config.fields, DocumentReader.fields?, DocumentReader.fields?,
      DocumentReader.fields?, hmemory, hzero]
    by_cases hm : SectionMember.Repeated (memorySections d) ∨ 2 ^ 64 ≤ (size? d).getD 65536
    · have hnone : Repeats d ∨ 2 ^ 64 ≤ (size? d).getD 65536 := hm.imp_left .inl
      rw [if_pos hm, if_pos hnone]
      rfl
    · obtain ⟨hmemory, hsize⟩ := not_or.1 hm
      rw [if_neg hm]
      by_cases hz : SectionMember.Repeated (registerSections d)
      · have hnone : Repeats d ∨ 2 ^ 64 ≤ (size? d).getD 65536 := .inl (.inr hz)
        rw [if_pos hz, if_pos hnone]
        rfl
      · have hsome : ¬(Repeats d ∨ 2 ^ 64 ≤ (size? d).getD 65536) :=
          not_or.2 ⟨not_or.2 ⟨hmemory, hz⟩, hsize⟩
        rw [if_neg hz, if_neg hsome]
        rfl
  · have hrepeats : Repeats d := by
      rcases not_and_or.1 hlength with h | h
      · exact .inl (.inl (by omega))
      · exact .inr (.inl (by omega))
    rw [if_neg hlength, if_pos (.inl hrepeats)]

end Reading

/-- A documented reader reads a document for its known members alone, in whatever order and with
whatever blanks and unknown members it is written. -/
theorem ofText_text [reader : DocumentReader] (hreader : reader.Documented) (d : ConfigDocument)
    (gap : Nat → List Json.Blank) :
    Config.ofText (text d gap) =
      if Repeats d then .error .parse
      else match size? d with
        | none => .ok { memorySize := 65536, zero := (policy? d).getD .hardwired }
        | some n =>
          if 2 ^ 64 ≤ n then .error .parse
          else if n = 0 then .error .zeroSizedMemory
          else .ok { memorySize := n, zero := (policy? d).getD .hardwired } := by
  have hwellFormed : (json d).WellFormed := Json.wellFormed_object (plainMember d)
  rw [Config.ofText, text, hreader.blanks Config.schema hwellFormed, value?_json d hreader]
  by_cases hrepeats : Repeats d
  · rw [if_pos (.inl hrepeats), if_pos hrepeats]
  · rw [if_neg hrepeats]
    cases hsize : size? d with
    | none =>
      rw [if_neg (by simp [hrepeats])]
      rfl
    | some n =>
      by_cases hlarge : 2 ^ 64 ≤ n
      · simp only [Option.getD_some]
        rw [if_pos (.inr hlarge), if_pos hlarge]
      · simp only [Option.getD_some]
        rw [if_neg (not_or.2 ⟨hrepeats, hlarge⟩), if_neg hlarge]
        rfl

/-- An unknown member that has the known fields inside, though not where they count. -/
def decoy {names : List String} (hunknown : "note" ∉ names) : UnknownMember names where
  key := "note".toList
  value := .object [("memory".toList, .array [.object [("size".toList, .decimal 0)]])]
  quoted := Json.quotedText_of_isName rfl
  plain := Json.plain_of_isName rfl
  unknown := hunknown
  wellFormed := by
    have hsize : (SectionMember.json Json.decimal ([.value 0] : MemorySection)).WellFormed :=
      SectionMember.wellFormed_json Json.wellFormed_decimal rfl _
    refine .object (List.forall_mem_singleton.2 (Json.quotedText_of_isName rfl)) ?_
    exact List.forall_mem_singleton.2 (.array (List.forall_mem_singleton.2 hsize))

/-- The sections in the other order, with unknown members, repeated ones too, at both levels. -/
def scattered : ConfigDocument :=
  [.unknown (decoy (by simp)),
    .registers [.unknown (decoy (by simp)), .value .writable, .unknown (decoy (by simp))],
    .unknown (decoy (by simp)), .memory [.unknown (decoy (by simp)), .value 4096]]

theorem ofText_scattered :
    Json.reader.Documented ∧
    Config.ofText (text scattered fun i => if i % 2 = 0 then [.newline, .tab] else []) =
      .ok { memorySize := 4096, zero := .writable } ∧
    Config.ofText (text (.memory [.value 0] :: scattered) fun _ => [.space]) = .error .parse :=
  ⟨Json.documented, ofText_text Json.documented scattered _, ofText_text Json.documented _ _⟩

example : text [.memory [.value 8], .registers [.value .writable]] (fun _ => []) =
    "\x7b\"memory\":\x7b\"size\":8\x7d,\"registers\":\x7b\"zero_register\":\"writable\"\x7d\x7d" :=
  rfl

end ConfigDocument

end RiscHart
