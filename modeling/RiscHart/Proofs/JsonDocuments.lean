import RiscHart.Json.Document
import RiscHart.Proofs.DocumentReaders
import RiscHart.Proofs.JsonValues

/-!
# A documented reader

The reader of JSON documents that a program is run with has the properties that readers of documents
are relied on for. A text is read for the value that it was written from, and a record is read from
the members that it knows.
-/

namespace RiscHart.Json

section Quoted

theorem pieces?_of_plain {raw : List Char} (hraw : '\\' ∉ raw) :
    pieces? raw = some (raw.map Piece.char) := by
  induction raw with
  | nil => rfl
  | cons c cs ih =>
    obtain ⟨hc, hcs⟩ := not_or.1 (List.mem_cons.not.1 hraw)
    rw [pieces?, ih hcs]
    · rfl
    · rintro a b c d cs rfl rfl
      exact hc rfl
    · rintro c cs rfl rfl
      exact hc rfl

theorem chars?_map_char (cs : List Char) : chars? (cs.map Piece.char) = some cs := by
  induction cs with
  | nil => rfl
  | cons c cs ih => rw [List.map_cons, chars?, ih, Option.map_some]

theorem decode?_of_plain {raw : List Char} (hraw : '\\' ∉ raw) :
    decode? raw = some (String.ofList raw) := by
  rw [decode?, pieces?_of_plain hraw, Option.bind_some, chars?_map_char, Option.map_some]

end Quoted

theorem size?_decimal (n : Nat) : size? (decimal n) = if n < 2 ^ 64 then some n else none := by
  have hdigits : isDigits (Nat.toDigits 10 n) = true := by
    obtain ⟨c, cs, h, -⟩ := (wholeText_toDigits n).exists_cons
    exact isDigits_eq_true (by simp [h]) (wholeText_toDigits n).isDigit
  have hdecimal : digitsValue (Nat.toDigits 10 n) = n :=
    Nat.ofDigitChars_toDigits (by omega) (by omega)
  have hvalue : boundedValue sizeLimit (Nat.toDigits 10 n) = min sizeLimit n := by
    rw [boundedValue_eq_min, hdecimal]
  have hlimit : sizeLimit = 2 ^ 64 := rfl
  simp only [size?, decimal, hdigits, hvalue, true_and]
  by_cases hn : n < 2 ^ 64
  · rw [if_pos hn, if_pos (by omega), Nat.min_eq_right (by omega)]
  · rw [if_neg hn, if_neg (by omega)]

section Records

theorem mapM_decode? {members : List (List Char × Json)} (hplain : ∀ m ∈ members, '\\' ∉ m.1) :
    (members.mapM fun m => (decode? m.1).map (·, m.2)) = some (byName members) := by
  induction members with
  | nil => rfl
  | cons m members ih =>
    obtain ⟨hm, hmembers⟩ := List.forall_mem_cons.1 hplain
    rw [List.mapM_cons, ih hmembers, decode?_of_plain hm]
    rfl

variable {names : List String} {members : List (List Char × Json)}

theorem record?_object (hplain : ∀ m ∈ members, '\\' ∉ m.1) :
    (object members).record? names =
      if ((knownByName names members).map Prod.fst).Nodup then some (knownByName names members)
      else none := by
  rw [record?, mapM_decode? hplain, Option.bind_eq_bind, Option.bind_some]
  rfl

theorem record?_object_of_known (hplain : ∀ m ∈ members, '\\' ∉ m.1)
    (hknown : ∀ name ∈ keys members, name ∈ names) (hdistinct : (keys members).Nodup) :
    (object members).record? names = some (byName members) := by
  have hall : knownByName names members = byName members := by
    refine List.filter_eq_self.2 fun m hm => decide_eq_true (hknown m.1 ?_)
    rw [← map_fst_byName]
    exact List.mem_map_of_mem hm
  rw [record?_object hplain, hall, map_fst_byName, if_pos hdistinct]

theorem record?_object_of_count (hplain : ∀ m ∈ members, '\\' ∉ m.1) {name : String}
    (hname : name ∈ names) (hcount : 1 < (keys members).count name) :
    (object members).record? names = none := by
  have hkeys : (knownByName names members).map Prod.fst = (keys members).filter (· ∈ names) := by
    rw [← map_fst_byName, List.filter_map]
    rfl
  have hfilter : ((keys members).filter (· ∈ names)).count name = (keys members).count name :=
    List.count_filter (decide_eq_true hname)
  rw [record?_object hplain, hkeys]
  refine if_neg fun hnodup => ?_
  have hone := List.nodup_iff_count_le_one.1 hnodup name
  omega

theorem record?_object_append_cons {before after : List (List Char × Json)}
    {m : List Char × Json} (hplain : ∀ m' ∈ before ++ m :: after, '\\' ∉ m'.1)
    (hm : String.ofList m.1 ∉ names) :
    (object (before ++ m :: after)).record? names = (object (before ++ after)).record? names := by
  have hsame : knownByName names (before ++ m :: after) = knownByName names (before ++ after) := by
    simp [knownByName, byName, hm]
  rw [record?_object hplain, record?_object (forall_mem_of_append_cons hplain), hsame]

end Records

section Reading

theorem read?_text {α : Type} (schema : Schema α) {v : Json} (hv : v.WellFormed)
    (gap : Nat → List Blank) : reader.read? schema (v.text gap) = v.read? schema := by
  change (ofText? (v.text gap)).bind (read? schema) = v.read? schema
  rw [hv.ofText?_text, Option.bind_some]

theorem value?_eq {α : Type} (schema : Schema α) {v : Json} (hv : v.WellFormed) :
    reader.value? schema v = v.read? schema :=
  read?_text schema hv _

theorem fields?_eq {α : Type} (fields : Schema.Fields α) {members : List (String × Json)}
    (hmembers : ∀ m ∈ members, m.2.WellFormed) :
    reader.fields? fields members = readFields? fields members := by
  match fields with
  | .nil => rfl
  | .cons name schema default rest =>
    have hfield : reader.field? name schema default members =
        (members.lookup name).elim (some default) (read? schema) := by
      rw [DocumentReader.field?]
      cases hv : members.lookup name with
      | none => rfl
      | some v =>
        obtain ⟨before, after, hsplit, -⟩ := List.lookup_eq_some_iff.1 hv
        exact value?_eq schema (hmembers (name, v) (by simp [hsplit]))
    rw [DocumentReader.fields?, readFields?, hfield, fields?_eq rest hmembers]

theorem documented : reader.Documented where
  blanks schema v hv gap := by rw [read?_text schema hv, value?_eq schema hv]
  size n := by rw [value?_eq _ (wellFormed_decimal n), read?, size?_decimal]
  oneOf table raw hraw hplain := by
    rw [value?_eq _ (.string hraw), read?, named?, decode?_of_plain hplain, Option.bind_some]
  unknown make fields _ before after m hmembers hm := by
    have hrest := forall_mem_of_append_cons hmembers
    rw [value?_eq _ (wellFormed_object hmembers), value?_eq _ (wellFormed_object hrest), read?,
      read?, record?_object_append_cons (fun m' hm' => (hmembers m' hm').plain) hm]
  repeated make fields _ members hmembers name hname hcount := by
    rw [value?_eq _ (wellFormed_object hmembers), read?,
      record?_object_of_count (fun m hm => (hmembers m hm).plain) hname hcount]
    rfl
  fields make fields _ members hmembers hknown hdistinct := by
    have hwellFormed : ∀ m ∈ byName members, m.2.WellFormed :=
      List.forall_mem_map.2 fun m hm => (hmembers m hm).wellFormed
    rw [value?_eq _ (wellFormed_object hmembers), read?,
      record?_object_of_known (fun m hm => (hmembers m hm).plain) hknown hdistinct,
      Option.bind_some, fields?_eq fields hwellFormed]

end Reading

end RiscHart.Json
