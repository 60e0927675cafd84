import RiscHart.Json.Reader
import RiscHart.Proofs.JsonTokens

/-!
# JSON values are read back

Whatever the nesting of a value, its text is read back as that value: the reader works off the
tokens of a value with everything around it untouched on its stack, and comes to the state that has
the value put in place.
-/

namespace RiscHart.Json

section Separable

theorem head_moreItems (vs : List Json) : ∀ t ∈ (moreItems vs).head?, t.isLoose = false := by
  cases vs <;> simp [moreItems, Token.isLoose]

theorem head_moreMembers (ms : List (List Char × Json)) :
    ∀ t ∈ (moreMembers ms).head?, t.isLoose = false := by
  cases ms <;> simp [moreMembers, Token.isLoose]

theorem separable_moreItems {vs : List Json} (hvs : ∀ v ∈ vs, Separable v.tokens) :
    Separable (moreItems vs) := by
  induction vs with
  | nil => exact .singleton trivial
  | cons v vs ih =>
    obtain ⟨hv, hvs⟩ := List.forall_mem_cons.1 hvs
    exact .cons trivial rfl (hv.append (ih hvs) (head_moreItems vs))

theorem separable_moreMembers {ms : List (List Char × Json)} (hkeys : ∀ m ∈ ms, QuotedText m.1)
    (hvalues : ∀ m ∈ ms, Separable m.2.tokens) : Separable (moreMembers ms) := by
  induction ms with
  | nil => exact .singleton trivial
  | cons m ms ih =>
    obtain ⟨hkey, hkeys⟩ := List.forall_mem_cons.1 hkeys
    obtain ⟨hv, hvalues⟩ := List.forall_mem_cons.1 hvalues
    have hrest := hv.append (ih hkeys hvalues) (head_moreMembers ms)
    exact .cons trivial rfl (.cons hkey rfl (.cons trivial rfl hrest))

theorem WellFormed.separable {v : Json} (hv : v.WellFormed) : Separable v.tokens := by
  induction hv with
  | null | bool => exact .singleton trivial
  | number htext => exact .singleton htext
  | string hraw => exact .singleton hraw
  | @array items _ ih =>
    cases items with
    | nil => exact .cons trivial rfl (.singleton trivial)
    | cons v vs =>
      obtain ⟨hv, hvs⟩ := List.forall_mem_cons.1 ih
      exact .cons trivial rfl (hv.append (separable_moreItems hvs) (head_moreItems vs))
  | @object members hkeys _ ih =>
    cases members with
    | nil => exact .cons trivial rfl (.singleton trivial)
    | cons m ms =>
      obtain ⟨hkey, hkeys⟩ := List.forall_mem_cons.1 hkeys
      obtain ⟨hv, hvalues⟩ := List.forall_mem_cons.1 ih
      have hrest := hv.append (separable_moreMembers hkeys hvalues) (head_moreMembers ms)
      exact .cons trivial rfl (.cons hkey rfl (.cons trivial rfl hrest))

end Separable

section Reading

open Reader

/-- No value begins with the bracket that would close an empty array. -/
theorem foldlM_firstItem (v : Json) (stack : List Frame) :
    v.tokens.foldlM feed (.firstItem stack) =
      v.tokens.foldlM feed (.value (.array [] :: stack)) := by
  cases v with
  | null | bool | number | string => rfl
  | array items => cases items <;> rfl
  | object members => cases members <;> rfl

mutual

theorem foldlM_tokens (v : Json) (stack : List Frame) :
    v.tokens.foldlM feed (.value stack) = some (put v stack) := by
  cases v with
  | null | bool | number | string => rfl
  | array items =>
    cases items with
    | nil => rfl
    | cons v vs =>
      have hopen : feed (.value stack) .openBracket = some (.firstItem stack) := rfl
      have hfirst := (foldlM_firstItem v stack).trans (foldlM_tokens v (.array [] :: stack))
      rw [tokens, foldlM_cons_of_some hopen, foldlM_append_of_some hfirst]
      exact foldlM_moreItems vs [v] stack
  | object members =>
    cases members with
    | nil => rfl
    | cons m ms =>
      obtain ⟨key, v⟩ := m
      have hopen : [.openBrace, .string key, .colon].foldlM feed (.value stack) =
          some (.value (.member [] key :: stack)) := rfl
      have hfirst := foldlM_tokens v (.member [] key :: stack)
      rw [show tokens (.object ((key, v) :: ms)) = [.openBrace, .string key, .colon] ++
        (tokens v ++ moreMembers ms) from rfl, foldlM_append_of_some hopen,
        foldlM_append_of_some hfirst]
      exact foldlM_moreMembers ms [(key, v)] stack

theorem foldlM_moreItems (vs items : List Json) (stack : List Frame) :
    (moreItems vs).foldlM feed (.afterItem items stack) =
      some (put (.array (items.reverse ++ vs)) stack) := by
  cases vs with
  | nil => rw [List.append_nil]; rfl
  | cons v vs =>
    have hcomma : feed (.afterItem items stack) .comma = some (.value (.array items :: stack)) :=
      rfl
    have hitem := foldlM_tokens v (.array items :: stack)
    have hrest := foldlM_moreItems vs (v :: items) stack
    rw [moreItems, foldlM_cons_of_some hcomma, foldlM_append_of_some hitem, put, hrest]
    simp

theorem foldlM_moreMembers (ms members : List (List Char × Json)) (stack : List Frame) :
    (moreMembers ms).foldlM feed (.afterMember members stack) =
      some (put (.object (members.reverse ++ ms)) stack) := by
  cases ms with
  | nil => rw [List.append_nil]; rfl
  | cons m ms =>
    obtain ⟨key, v⟩ := m
    have hkey : [.comma, .string key, .colon].foldlM feed (.afterMember members stack) =
        some (.value (.member members key :: stack)) := rfl
    have hvalue := foldlM_tokens v (.member members key :: stack)
    have hrest := foldlM_moreMembers ms ((key, v) :: members) stack
    rw [show moreMembers ((key, v) :: ms) = [.comma, .string key, .colon] ++
      (tokens v ++ moreMembers ms) from rfl, foldlM_append_of_some hkey,
      foldlM_append_of_some hvalue, put, hrest]
    simp

end

theorem ofTokens?_tokens (v : Json) : ofTokens? v.tokens = some v := by
  rw [ofTokens?, foldlM_tokens]
  rfl

end Reading

theorem WellFormed.ofText?_text {v : Json} (hv : v.WellFormed) (gap : Nat → List Blank) :
    ofText? (v.text gap) = some v := by
  rw [ofText?, text, String.toList_ofList, hv.separable.tokens?_write, Option.bind_some,
    ofTokens?_tokens]

end RiscHart.Json
