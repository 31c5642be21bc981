import HtmlTree.Proofs.TokenStreams
import Mathlib.Data.List.Forall2

/-!
# The spellings of a token

The object of a token may be written in many ways: its members and those of its attributes in any
order, members that hold a default left out, members that no reader asks for put in, and white space
before every lexeme.  All of them are read as the same token.  But where a member that the type knows
is repeated, or the type is, there is no token.

* `Respelled`                         other members for the same object;
* `Respelled.field?_eq`               a member that the object has is found once, or it held its default;
* `AttributeSpelling`, `Spelling`     the objects of an attribute and of a token;
* `Spelling.ofJson?_eq`               **every spelling gives the token back**;
* `ofJson?_repeated`                  **a repeated member spoils the object**;
* `decode_spelling`                   both for all texts of the object.
-/

namespace HtmlTree.Token

open Json (Value TextOf)

/-! ## members in other places -/

/-- `ms'` has the members `ms` in any order, but perhaps without some that are `defaults`, and others
besides under names that none of `ms` has -/
def Respelled (defaults ms ms' : List (String × Value)) : Prop :=
  ∃ kept dropped added, (kept ++ dropped).Perm ms ∧ (∀ m ∈ dropped, m ∈ defaults) ∧
    (∀ m ∈ added, m.1 ∉ ms.map Prod.fst) ∧ ms'.Perm (kept ++ added)

section Fields
variable {α : Type} {read : Value → Option α} {default : α} {name : String} {v : Value}
  {defaults ms ms' : List (String × Value)}

theorem field?_of_filter_nil (h : ms.filter (·.1 == name) = []) : field? name ms = some none := by
  rw [field?, h]

theorem field?_of_filter_one {m : String × Value} (h : ms.filter (·.1 == name) = [m]) :
    field? name ms = some (some m.2) := by
  rw [field?, h]

/-- names that differ belong to one member each -/
theorem filter_name_eq (hnodup : (ms.map Prod.fst).Nodup) (hmem : (name, v) ∈ ms) :
    ms.filter (·.1 == name) = [(name, v)] := by
  induction ms with
  | nil => cases hmem
  | cons m ms ih =>
    obtain ⟨hm, hnodup⟩ := List.nodup_cons.mp hnodup
    rcases List.mem_cons.mp hmem with rfl | hmem
    · rw [List.filter_cons, if_pos (beq_self_eq_true name), List.filter_eq_nil_iff.mpr]
      intro x hx hname
      exact hm (List.mem_map.mpr ⟨x, hx, beq_iff_eq.mp hname⟩)
    · have hne : ¬(m.1 == name) = true := fun hname =>
        hm (List.mem_map.mpr ⟨(name, v), hmem, (beq_iff_eq.mp hname).symm⟩)
      rw [List.filter_cons, if_neg hne, ih hnodup hmem]

/-- **A member is found once**, or it held a default and was left out. -/
theorem Respelled.field?_eq (h : Respelled defaults ms ms') (hnodup : (ms.map Prod.fst).Nodup)
    (hmem : (name, v) ∈ ms) : field? name ms' = some (some v) ∨
      (name, v) ∈ defaults ∧ field? name ms' = some none := by
  obtain ⟨kept, dropped, added, hperm, hdropped, hadded, hperm'⟩ := h
  have hsplit : kept.filter (·.1 == name) ++ dropped.filter (·.1 == name) = [(name, v)] := by
    rw [← List.perm_singleton, ← List.filter_append, ← filter_name_eq hnodup hmem]
    exact hperm.filter _
  have hnone : added.filter (·.1 == name) = [] := by
    refine List.filter_eq_nil_iff.mpr fun m hm hname => hadded m hm ?_
    exact List.mem_map.mpr ⟨(name, v), hmem, (beq_iff_eq.mp hname).symm⟩
  have hfilter : (ms'.filter (·.1 == name)).Perm (kept.filter (·.1 == name)) := by
    have := hperm'.filter (·.1 == name)
    rwa [List.filter_append, hnone, List.append_nil] at this
  rcases List.append_eq_singleton_iff.mp hsplit with ⟨hkept, hdrop⟩ | ⟨hkept, _⟩
  · rw [hkept] at hfilter
    have hin : (name, v) ∈ dropped.filter (·.1 == name) := hdrop ▸ List.mem_singleton_self _
    exact .inr ⟨hdropped _ (List.mem_of_mem_filter hin),
      field?_of_filter_nil (List.perm_nil.mp hfilter)⟩
  · rw [hkept] at hfilter
    exact .inl (field?_of_filter_one (List.perm_singleton.mp hfilter))

theorem Respelled.required_eq (h : Respelled defaults ms ms') (hnodup : (ms.map Prod.fst).Nodup)
    (hmem : (name, v) ∈ ms) (hkept : (name, v) ∉ defaults) : required read name ms' = read v := by
  rcases h.field?_eq hnodup hmem with hfield | ⟨hdefault, _⟩
  · rw [required, hfield]
    rfl
  · exact absurd hdefault hkept

theorem Respelled.defaulted_eq (h : Respelled defaults ms ms') (hnodup : (ms.map Prod.fst).Nodup)
    (hmem : (name, v) ∈ ms) (hdefault : (name, v) ∈ defaults → read v = some default) :
    defaulted read default name ms' = read v := by
  rcases h.field?_eq hnodup hmem with hfield | ⟨hdropped, hfield⟩
  · rw [defaulted, hfield]
    rfl
  · rw [defaulted, hfield, hdefault hdropped]
    rfl

/-- an identifier that is missing may be left out -/
theorem Respelled.identifier_eq (h : Respelled defaults ms ms') (name : String)
    (text : Option String) (hnodup : (ms.map Prod.fst).Nodup) (hmem : (name, optionalText text) ∈ ms)
    (hdefault : ∀ v, (name, v) ∈ defaults → v = .null) :
    defaulted identifier? none name ms' = some text := by
  rw [h.defaulted_eq hnodup hmem fun hdropped => ?_, identifier?_optionalText]
  rw [hdefault _ hdropped]
  rfl

end Fields

/-! ## attributes -/

/-- an object for an attribute; an empty value may be left out -/
def AttributeSpelling (a : TagAttribute) (v : Value) : Prop :=
  ∃ ms ms', attributeJson a = .object ms ∧ v = .object ms' ∧
    Respelled [("value", .string "")] ms ms'

theorem AttributeSpelling.tagAttribute?_eq {a : TagAttribute} {v : Value}
    (h : AttributeSpelling a v) : tagAttribute? v = some a := by
  obtain ⟨ms, ms', hms, rfl, h⟩ := h
  cases hms
  have hname : required Value.string? "name" ms' = some a.name :=
    h.required_eq (v := .string a.name) (by simp) (by simp) (by simp)
  have hvalue : defaulted Value.string? "" "value" ms' = some a.value :=
    h.defaulted_eq (v := .string a.value) (by simp) (by simp) (by simp [Value.string?])
  show ((required Value.string? "name" ms').bind fun name =>
    (defaulted Value.string? "" "value" ms').bind fun value => some (TagAttribute.mk name value)) = _
  rw [hname, hvalue]
  rfl

theorem attributes?_of_spellings {attributes : List TagAttribute} {vs : List Value}
    (h : List.Forall₂ AttributeSpelling attributes vs) :
    attributes? (.array vs) = some attributes := by
  show vs.mapM tagAttribute? = some attributes
  induction h with
  | nil => rfl
  | cons ha _ ih =>
    rw [List.mapM_cons, ha.tagAttribute?_eq, ih]
    rfl

/-! ## tokens -/

/-- the attributes that a token has -/
def tagAttributes : Token → List TagAttribute
  | startTag tag => tag.attributes
  | _ => []

/-- the fields of a token with these values for its attributes -/
def fieldsWith (vs : List Value) : Token → List (String × Value)
  | startTag tag =>
    [("name", .string tag.name), ("self_closing", .bool tag.selfClosing), ("attributes", .array vs)]
  | t => t.fields

/-- the fields that may be left out, with the values that they have then -/
def defaultFields : Token → List (String × Value)
  | doctype _ =>
    [ ("name", .null), ("public_identifier", .null), ("system_identifier", .null),
      ("force_quirks", .bool false) ]
  | startTag _ => [("self_closing", .bool false), ("attributes", .array [])]
  | comment _ => [("data", .string "")]
  | _ => []

/-- the members of an object for a token -/
def Spelling (t : Token) (ms : List (String × Value)) : Prop :=
  ∃ vs, List.Forall₂ AttributeSpelling t.tagAttributes vs ∧
    Respelled t.defaultFields (("type", .string t.typeName) :: t.fieldsWith vs) ms

section Tokens
variable {t : Token} {ms : List (String × Value)} {name : String}

theorem fieldsWith_attributeJson (t : Token) :
    t.fieldsWith (t.tagAttributes.map attributeJson) = t.fields := by
  cases t <;> rfl

theorem nodup_names (t : Token) (vs : List Value) :
    ((("type", Value.string t.typeName) :: t.fieldsWith vs).map Prod.fst).Nodup := by
  cases t <;> simp [fieldsWith, fields]

theorem ofJson?_of_type {typeName : String}
    (h : required Value.string? "type" ms = some typeName) :
    ofJson? (.object ms) = ofFields? typeName ms := by
  show (required Value.string? "type" ms).bind _ = _
  rw [h]
  rfl

/-- **Every spelling of its object gives the token back.** -/
theorem Spelling.ofJson?_eq (h : t.Spelling ms) : ofJson? (.object ms) = some t := by
  obtain ⟨vs, hvs, h⟩ := h
  have hnodup := t.nodup_names vs
  have htype : required Value.string? "type" ms = some t.typeName := by
    refine h.required_eq (v := .string t.typeName) hnodup List.mem_cons_self ?_
    cases t <;> simp [defaultFields]
  rw [ofJson?_of_type htype]
  cases t with
  | doctype d =>
    have hname := h.identifier_eq "name" d.name hnodup
      (by simp [fieldsWith, fields]) (by simp [defaultFields])
    have hpublic := h.identifier_eq "public_identifier" d.publicId hnodup
      (by simp [fieldsWith, fields]) (by simp [defaultFields])
    have hsystem := h.identifier_eq "system_identifier" d.systemId hnodup
      (by simp [fieldsWith, fields]) (by simp [defaultFields])
    have hquirks : defaulted Value.bool? false "force_quirks" ms = some d.forceQuirks :=
      h.defaulted_eq (v := .bool d.forceQuirks) hnodup (by simp [fieldsWith, fields])
        (by simp [defaultFields, Value.bool?])
    simp only [ofFields?, typeName, hname, hpublic, hsystem, hquirks, Option.bind_eq_bind,
      Option.bind_some]
  | startTag tag =>
    have hname : required Value.string? "name" ms = some tag.name :=
      h.required_eq (v := .string tag.name) hnodup (by simp [fieldsWith]) (by simp [defaultFields])
    have hclosing : defaulted Value.bool? false "self_closing" ms = some tag.selfClosing :=
      h.defaulted_eq (v := .bool tag.selfClosing) hnodup (by simp [fieldsWith])
        (by simp [defaultFields, Value.bool?])
    have hattributes : defaulted attributes? [] "attributes" ms = some tag.attributes := by
      rw [h.defaulted_eq (v := .array vs) hnodup (by simp [fieldsWith]) ?_]
      · exact attributes?_of_spellings hvs
      · intro hdropped
        obtain rfl : vs = [] := by simpa [defaultFields] using hdropped
        rfl
    simp only [ofFields?, typeName, hname, hclosing, hattributes, Option.bind_eq_bind,
      Option.bind_some]
  | endTag name =>
    have hname : required Value.string? "name" ms = some name :=
      h.required_eq (v := .string name) hnodup (by simp [fieldsWith, fields]) (by simp [defaultFields])
    simp only [ofFields?, typeName, hname, Option.map_some]
  | comment data =>
    have hdata : defaulted Value.string? "" "data" ms = some data :=
      h.defaulted_eq (v := .string data) hnodup (by simp [fieldsWith, fields])
        (by simp [defaultFields, Value.string?])
    simp only [ofFields?, typeName, hdata, Option.map_some]
  | character c =>
    have hdata : required char? "data" ms = some c := by
      rw [h.required_eq (v := .string (String.singleton c)) hnodup (by simp [fieldsWith, fields])
        (by simp [defaultFields]), char?_singleton]
    simp only [ofFields?, typeName, hdata, Option.map_some]
  | endOfFile => rfl

/-- the object that is written for a token is one of its spellings -/
theorem spelling_toJson (t : Token) : t.Spelling (("type", .string t.typeName) :: t.fields) := by
  have hrefl : ∀ defaults ms, Respelled defaults ms ms := fun _ ms =>
    ⟨ms, [], [], by rw [List.append_nil], nofun, nofun, by rw [List.append_nil]⟩
  refine ⟨t.tagAttributes.map attributeJson, ?_, ?_⟩
  · rw [List.forall₂_map_right_iff]
    exact List.forall₂_same.mpr fun a _ => ⟨_, _, rfl, rfl, hrefl _ _⟩
  · rw [fieldsWith_attributeJson]
    exact hrefl _ _

/-! ## repeated members -/

theorem field?_of_twice (h : 2 ≤ (ms.map Prod.fst).count name) : field? name ms = none := by
  have hlength : 2 ≤ (ms.filter (·.1 == name)).length := by
    rw [← List.countP_eq_length_filter]
    rwa [List.count, List.countP_map] at h
  rw [field?]
  split
  next hnil => rw [hnil] at hlength; exact absurd hlength (by decide)
  next m hone => rw [hone, List.length_singleton] at hlength; omega
  next => rfl

/-- a member that is found is the only one of its name -/
theorem eq_of_field? {v w : Value} (h : field? name ms = some (some v)) (hmem : (name, w) ∈ ms) :
    w = v := by
  have hin : (name, w) ∈ ms.filter (·.1 == name) :=
    List.mem_filter.mpr ⟨hmem, beq_self_eq_true name⟩
  rw [field?] at h
  split at h
  next => cases h
  next m hone =>
    cases h
    rw [hone, List.mem_singleton] at hin
    rw [← hin]
  next => cases h

theorem field?_of_required {α : Type} {read : Value → Option α} {x : α}
    (h : required read name ms = some x) : ∃ v, field? name ms = some (some v) ∧ read v = some x := by
  obtain ⟨v?, hfield, hread⟩ := Option.bind_eq_some_iff.mp h
  obtain ⟨v, rfl, hv⟩ := Option.bind_eq_some_iff.mp hread
  exact ⟨v, hfield, hv⟩

theorem field?_of_defaulted {α : Type} {read : Value → Option α} {default x : α}
    (h : defaulted read default name ms = some x) : field? name ms ≠ none := by
  obtain ⟨v?, hfield, _⟩ := Option.bind_eq_some_iff.mp h
  rw [hfield]
  exact Option.some_ne_none v?

/-- **No field of a token is repeated.** -/
theorem field?_of_ofFields? {u : Token} (h : ofFields? t.typeName ms = some u)
    (hname : name ∈ t.fields.map Prod.fst) : field? name ms ≠ none := by
  have hrequired : ∀ {α : Type} {read : Value → Option α} {x : α},
      required read name ms = some x → field? name ms ≠ none := fun hx => by
    obtain ⟨v, hv, _⟩ := field?_of_required hx
    rw [hv]
    exact Option.some_ne_none _
  cases t <;> simp only [ofFields?, typeName, Option.bind_eq_bind, Option.bind_eq_some_iff,
    Option.map_eq_some_iff] at h <;> simp only [fields, List.map_cons, List.map_nil,
    List.mem_cons, List.not_mem_nil, or_false] at hname
  case doctype =>
    obtain ⟨_, hn, _, hp, _, hs, _, hq, _⟩ := h
    rcases hname with rfl | rfl | rfl | rfl
    · exact field?_of_defaulted hn
    · exact field?_of_defaulted hp
    · exact field?_of_defaulted hs
    · exact field?_of_defaulted hq
  case startTag =>
    obtain ⟨_, hn, _, hs, _, ha, _⟩ := h
    rcases hname with rfl | rfl | rfl
    · exact hrequired hn
    · exact field?_of_defaulted hs
    · exact field?_of_defaulted ha
  case endTag =>
    obtain ⟨_, hn, _⟩ := h
    subst hname
    exact hrequired hn
  case comment =>
    obtain ⟨_, hd, _⟩ := h
    subst hname
    exact field?_of_defaulted hd
  case character =>
    obtain ⟨_, hd, _⟩ := h
    subst hname
    exact hrequired hd

/-- **A repeated member spoils the object**, wherever it stands, if the type or the fields of the type
have its name. -/
theorem ofJson?_repeated (htype : ("type", .string t.typeName) ∈ ms)
    (hname : name ∈ "type" :: t.fields.map Prod.fst) (htwice : 2 ≤ (ms.map Prod.fst).count name) :
    ofJson? (.object ms) = none := by
  have htwice := field?_of_twice htwice
  refine Option.eq_none_iff_forall_ne_some.mpr fun u hu => ?_
  obtain ⟨typeName, hrequired, hu⟩ := Option.bind_eq_some_iff.mp hu
  obtain ⟨v, hfield, hv⟩ := field?_of_required hrequired
  rcases List.mem_cons.mp hname with rfl | hname
  · rw [hfield] at htwice
    cases htwice
  · cases eq_of_field? hfield htype
    cases hv
    exact field?_of_ofFields? hu hname htwice

end Tokens

/-! ## texts -/

/-- **All spellings of a token are read alike.**  Whatever text its object has, with its members and
those of its attributes in any order, with defaults left out, with other members put in and with white
space before any lexeme, it is the token, and what follows is left.  An object of the type in which
`type` or a field of the type is repeated is malformed in all its texts. -/
theorem decode_spelling (t : Token) :
    (∀ ms cs, t.Spelling ms → TextOf (.object ms) cs →
      (∀ rest, pull (cs ++ rest) = .token t rest) ∧ decode cs = ⟨[t], false⟩) ∧
    ∀ ms cs name, ("type", .string t.typeName) ∈ ms → name ∈ "type" :: t.fields.map Prod.fst →
      2 ≤ (ms.map Prod.fst).count name → TextOf (.object ms) cs →
      (∀ rest, pull (cs ++ rest) = .malformed) ∧ decode cs = ⟨[], true⟩ := by
  have hpull : ∀ ms cs, TextOf (.object ms) cs → ∀ rest, pull (cs ++ rest) =
      (ofJson? (.object ms)).elim .malformed fun t => .token t rest :=
    fun ms cs hcs rest => pull_of_reads (hcs.reads rfl rest)
  constructor
  · intro ms cs hms hcs
    have htoken : ∀ rest, pull (cs ++ rest) = .token t rest := fun rest => by
      rw [hpull ms cs hcs rest, hms.ofJson?_eq]
      rfl
    refine ⟨htoken, ?_⟩
    have hend := htoken []
    rw [List.append_nil] at hend
    rw [decode_token hend, decode_ended rfl]
  · intro ms cs name htype hname htwice hcs
    have hmalformed : ∀ rest, pull (cs ++ rest) = .malformed := fun rest => by
      rw [hpull ms cs hcs rest, ofJson?_repeated htype hname htwice]
      rfl
    refine ⟨hmalformed, decode_malformed ?_⟩
    have hend := hmalformed []
    rwa [List.append_nil] at hend

/-- A start tag whose type comes last, with a blank before each lexeme; and an end tag that is named
twice. -/
theorem decode_spelling_typeLast :
    decode (" \x7b \"name\" : \"p\" , \"attributes\" : [ \x7b \"x\" : null , \"name\" : \"a\" " ++
      "\x7d ] , \"y\" : 1 , \"type\" : \"start_tag\" \x7d").toList =
        ⟨[.startTag ⟨"p", false, [⟨"a", ""⟩]⟩], false⟩ ∧
    decode "\x7b\"name\":\"p\",\"type\":\"end_tag\",\"name\":\"q\"\x7d".toList = ⟨[], true⟩ := by
  have hattribute : AttributeSpelling ⟨"a", ""⟩ (.object [("x", .null), ("name", .string "a")]) :=
    ⟨_, _, rfl, rfl, [("name", .string "a")], [("value", .string "")], [("x", .null)], .refl _,
      by simp, by simp, .swap _ _ _⟩
  have htag : (Token.startTag ⟨"p", false, [⟨"a", ""⟩]⟩).Spelling
      [ ("name", .string "p"),
        ("attributes", .array [.object [("x", .null), ("name", .string "a")]]),
        ("y", .number "1"), ("type", .string "start_tag") ] := by
    refine ⟨_, .cons hattribute .nil, [("name", .string "p"), ("attributes", _),
      ("type", .string "start_tag")], [("self_closing", .bool false)], [("y", .number "1")], ?_,
      by simp [defaultFields], by simp [fieldsWith], ((List.Perm.swap _ _ _).cons _).cons _⟩
    exact (List.perm_middle : ([_, _] ++ _ :: [_]).Perm _).trans
      (((List.Perm.swap _ _ _).cons _).cons _)
  have hname : Json.readText "name\"".toList = some ("name", []) := by decide
  constructor
  · refine ((decode_spelling _).1 _ _ htag ⟨_, .object
      (.nextMember hname (.string (l := "p\"".toList) (by decide))
        (.nextMember (l := "attributes\"".toList) (by decide)
          (.array (.lastItem (.object
            (.nextMember (l := "x\"".toList) (by decide) .null
              (.lastMember hname (.string (l := "a\"".toList) (by decide)))))))
          (.nextMember (l := "y\"".toList) (by decide) (.number (by decide))
            (.lastMember (l := "type\"".toList) (by decide)
              (.string (l := "start_tag\"".toList) (by decide)))))), ?_⟩).2
    exact Json.spaced_each [' '] (List.forall_mem_singleton.mpr rfl) _
  · refine ((decode_spelling (.endTag "p")).2 [("name", .string "p"),
      ("type", .string "end_tag"), ("name", .string "q")] _ "name" (by simp [typeName])
      (by decide) (by decide) ⟨_, .object
        (.nextMember hname (.string (l := "p\"".toList) (by decide))
          (.nextMember (l := "type\"".toList) (by decide)
            (.string (l := "end_tag\"".toList) (by decide))
            (.lastMember hname (.string (l := "q\"".toList) (by decide))))), ?_⟩).2
    exact Json.spaced_each [] nofun _

end HtmlTree.Token
