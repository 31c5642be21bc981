import HtmlTree.Proofs.Spellings
import HtmlTree.Token.Decoding
import HtmlTree.Token.Encoding

/-!
# Token streams and what follows them

A token's text shows where it ends, so a stream is read token by token and what follows a token does
not change it.  Texts of streams may therefore be put one after the other.

* `Token.ofJson?_toJson`  a token's value gives the token back;
* `Token.pull_append`     **a token is read as it is**, whatever follows;
* `Token.decode_append`   **one text after another** gives the tokens of both;
* `Token.decode_encoded`  **written tokens are read back**, and then the tokens of what follows.
-/

namespace HtmlTree.Token

open Json (Value Reads)

/-! ## the value of a token -/

theorem optionalText_writable (d : Nat) (text : Option String) : (optionalText text).Writable d := by
  cases text with
  | none => exact .null
  | some s => exact .string

theorem attributeJson_writable (d : Nat) (a : TagAttribute) :
    (attributeJson a).Writable (d + 1) := by
  refine .object fun m hm => ?_
  simp only [List.mem_cons, List.not_mem_nil, or_false] at hm
  obtain rfl | rfl := hm
  · exact .string
  · exact .string

/-- a field is an identifier, a flag, a text or a list of attributes -/
theorem fields_writable (d : Nat) (t : Token) : ∀ m ∈ t.fields, m.2.Writable (d + 2) := by
  intro m hm
  cases t <;> simp only [fields, List.mem_cons, List.not_mem_nil, or_false] at hm
  case doctype =>
    obtain rfl | rfl | rfl | rfl := hm
    · exact optionalText_writable _ _
    · exact optionalText_writable _ _
    · exact optionalText_writable _ _
    · exact .bool
  case startTag tag =>
    obtain rfl | rfl | rfl := hm
    · exact .string
    · exact .bool
    · refine .array fun v hv => ?_
      obtain ⟨a, _, rfl⟩ := List.mem_map.mp hv
      exact attributeJson_writable d a
  case endTag | comment | character =>
    obtain rfl := hm
    exact .string

theorem toJson_writable (t : Token) : t.toJson.Writable Json.maxDepth := by
  refine .object fun m hm => ?_
  obtain rfl | hm := List.mem_cons.mp hm
  · exact .string
  · exact fields_writable 124 t m hm

theorem identifier?_optionalText (text : Option String) :
    identifier? (optionalText text) = some text := by
  cases text <;> rfl

theorem tagAttribute?_attributeJson (a : TagAttribute) :
    tagAttribute? (attributeJson a) = some a := rfl

theorem attributes?_attributeJson (attributes : List TagAttribute) :
    attributes? (.array (attributes.map attributeJson)) = some attributes := by
  show (attributes.map attributeJson).mapM tagAttribute? = some attributes
  induction attributes with
  | nil => rfl
  | cons a attributes ih =>
    rw [List.map_cons, List.mapM_cons, tagAttribute?_attributeJson, ih]
    rfl

theorem char?_singleton (c : Char) : char? (.string (String.singleton c)) = some c := by
  simp [char?, Value.string?]

/-- **A token's value gives the token back.** -/
theorem ofJson?_toJson (t : Token) : ofJson? t.toJson = some t := by
  cases t with
  | doctype d =>
    show ((identifier? (optionalText d.name)).bind fun name =>
      (identifier? (optionalText d.publicId)).bind fun publicId =>
      (identifier? (optionalText d.systemId)).bind fun systemId =>
        some (doctype ⟨name, publicId, systemId, d.forceQuirks⟩)) = _
    simp only [identifier?_optionalText, Option.bind_some]
  | startTag tag =>
    show ((attributes? (.array (tag.attributes.map attributeJson))).bind fun attributes =>
      some (startTag ⟨tag.name, tag.selfClosing, attributes⟩)) = _
    rw [attributes?_attributeJson, Option.bind_some]
  | endTag name => rfl
  | comment data => rfl
  | character c =>
    show (char? (.string (String.singleton c))).map character = _
    rw [char?_singleton, Option.map_some]
  | endOfFile => rfl

/-! ## the next token -/

section Pull
variable {text rest cs : List Char} {c : Char} {t : Token}

/-- a token is an object or an array, which shows where it ends -/
theorem not_isNumber {v : Value} (h : ofJson? v = some t) :
    (Json.Found.value v).isNumber = false := by
  cases v with
  | number literal => cases h
  | null | bool b | string text | array items | object members => rfl

theorem readToken?_eq_some_iff : readToken? cs = some (t, rest) ↔
    ∃ v, Reads Json.maxDepth (.value v) cs rest ∧ ofJson? v = some t := by
  simp only [readToken?, Option.bind_eq_bind, Option.bind_eq_some_iff, Prod.exists,
    Json.read_eq_some_iff, Option.some.injEq, Prod.mk.injEq]
  constructor
  · rintro ⟨v, r, hv, u, hu, rfl, rfl⟩
    exact ⟨v, hv, hu⟩
  · rintro ⟨v, hv, ht⟩
    exact ⟨v, rest, hv, t, ht, rfl, rfl⟩

theorem pull_of_blank (h : Json.skipBlanks text = []) : pull text = .ended := by
  rw [pull, h]

theorem pull_of_cons (h : Json.skipBlanks text = c :: cs) :
    pull text = (readToken? (c :: cs)).elim .malformed fun p => .token p.1 p.2 := by
  rw [pull, h]
  dsimp only
  cases readToken? (c :: cs) <;> rfl

theorem pull_eq_ended_iff : pull text = .ended ↔ Json.skipBlanks text = [] := by
  refine ⟨fun h => ?_, pull_of_blank⟩
  cases hs : Json.skipBlanks text with
  | nil => rfl
  | cons c cs =>
    rw [pull_of_cons hs] at h
    cases hr : readToken? (c :: cs) <;> rw [hr] at h <;> cases h

theorem pull_eq_token_iff : pull text = .token t rest ↔
    ∃ c cs, Json.skipBlanks text = c :: cs ∧ readToken? (c :: cs) = some (t, rest) := by
  constructor
  · intro h
    cases hs : Json.skipBlanks text with
    | nil => rw [pull_of_blank hs] at h; cases h
    | cons c cs =>
      rw [pull_of_cons hs] at h
      refine ⟨c, cs, rfl, ?_⟩
      cases hr : readToken? (c :: cs) with
      | none => rw [hr] at h; cases h
      | some p =>
        rw [hr] at h
        cases h
        rfl
  · rintro ⟨c, cs, hs, hr⟩
    rw [pull_of_cons hs, hr]
    rfl

theorem pull_shortens (h : pull text = .token t rest) : rest.length < text.length := by
  obtain ⟨c, cs, hs, hr⟩ := pull_eq_token_iff.mp h
  obtain ⟨v, hv, _⟩ := readToken?_eq_some_iff.mp hr
  have hskip := Json.skipBlanks_length text
  rw [hs] at hskip
  exact hv.shortens.trans_le hskip

/-- **A token is read as it is**, whatever follows it. -/
theorem pull_append (h : pull text = .token t rest) (more : List Char) :
    pull (text ++ more) = .token t (rest ++ more) := by
  obtain ⟨c, cs, hs, hr⟩ := pull_eq_token_iff.mp h
  obtain ⟨v, hv, ht⟩ := readToken?_eq_some_iff.mp hr
  exact pull_eq_token_iff.mpr ⟨c, cs ++ more, Json.skipBlanks_append hs more,
    readToken?_eq_some_iff.mpr ⟨v, hv.append (.inl (not_isNumber ht)) more, ht⟩⟩

/-- white space before a text is passed over -/
theorem pull_blank_append (h : Json.skipBlanks text = []) (more : List Char) :
    pull (text ++ more) = pull more := by
  have hskip : Json.skipBlanks (text ++ more) = Json.skipBlanks more := by
    rw [Json.skipBlanks, List.dropWhile_append, ← Json.skipBlanks, h]
    rfl
  rw [pull, pull, hskip]

/-- what a value at the front gives -/
theorem pull_of_reads {v : Value} (h : Reads Json.maxDepth (.value v) text rest) :
    pull text = (ofJson? v).elim .malformed fun t => .token t rest := by
  obtain ⟨c, cs, hs, _⟩ := h.head
  have hread : Json.read (c :: cs) = some (v, rest) :=
    Json.read_eq_some_iff.mpr (hs ▸ h.of_skipBlanks)
  rw [pull_of_cons hs, readToken?, hread]
  show ((ofJson? v).bind fun t => some (t, rest)).elim Pulled.malformed _ = _
  cases ofJson? v <;> rfl

/-- **A written token is the next one.** -/
theorem pull_encode (t : Token) (more : List Char) : pull (t.encode ++ more) = .token t more := by
  have hread : Reads Json.maxDepth (.value t.toJson) (t.encode ++ more) more :=
    t.toJson_writable.textOf.reads t.toJson_writable.not_isNumber more
  rw [pull_of_reads hread, ofJson?_toJson]
  rfl

end Pull

/-! ## the tokens of a text -/

section Decode
variable {text rest : List Char} {t : Token}

/-- more calls than characters are as good as any -/
theorem decodeUpTo_eq (fuel fuel' : Nat) (text : List Char) (h : text.length < fuel)
    (h' : text.length < fuel') : decodeUpTo fuel text = decodeUpTo fuel' text := by
  induction fuel generalizing fuel' text with
  | zero => omega
  | succ fuel ih =>
    obtain ⟨fuel', rfl⟩ : ∃ n, fuel' = n + 1 := ⟨fuel' - 1, by omega⟩
    rw [decodeUpTo, decodeUpTo]
    cases hp : pull text with
    | ended => rfl
    | malformed => rfl
    | token t rest =>
      have hshort := pull_shortens hp
      dsimp only
      rw [ih fuel' rest (by omega) (by omega)]

theorem decode_ended (h : pull text = .ended) : decode text = ⟨[], false⟩ := by
  rw [decode, decodeUpTo, h]

theorem decode_malformed (h : pull text = .malformed) : decode text = ⟨[], true⟩ := by
  rw [decode, decodeUpTo, h]

theorem decode_token (h : pull text = .token t rest) :
    decode text = ⟨t :: (decode rest).tokens, (decode rest).malformed⟩ := by
  have hshort := pull_shortens h
  rw [decode, decodeUpTo, h]
  dsimp only
  rw [decodeUpTo_eq text.length (rest.length + 1) rest hshort (Nat.lt_succ_self _)]
  rfl

/-- **One text after another** gives the tokens of both, if the first is a stream to its end. -/
theorem decode_append (front back : List Char) (h : (decode front).malformed = false) :
    decode (front ++ back) =
      ⟨(decode front).tokens ++ (decode back).tokens, (decode back).malformed⟩ := by
  induction hn : front.length using Nat.strong_induction_on generalizing front with
  | _ n ih =>
    subst hn
    cases hp : pull front with
    | ended =>
      have hpull := pull_blank_append (pull_eq_ended_iff.mp hp) back
      rw [decode_ended hp]
      cases hb : pull back with
      | ended => rw [decode_ended hb, decode_ended (hpull.trans hb)]; rfl
      | malformed => rw [decode_malformed hb, decode_malformed (hpull.trans hb)]; rfl
      | token t rest => rw [decode_token hb, decode_token (hpull.trans hb)]; rfl
    | malformed =>
      rw [decode_malformed hp] at h
      cases h
    | token t rest =>
      rw [decode_token hp] at h ⊢
      rw [decode_token (pull_append hp back), ih rest.length (pull_shortens hp) rest h rfl]
      rfl

/-- **Written tokens are read back**, and then the tokens of the text that follows: their texts in a
row are a stream of just these tokens, and in front of any other text, malformed or not, they add
themselves to its tokens and change nothing else. -/
theorem decode_encoded (tokens : List Token) (text : List Char) :
    decode (tokens.flatMap encode ++ text) =
        ⟨tokens ++ (decode text).tokens, (decode text).malformed⟩ ∧
      decode (tokens.flatMap encode) = ⟨tokens, false⟩ := by
  have hfront : ∀ more, decode (tokens.flatMap encode ++ more) =
      ⟨tokens ++ (decode more).tokens, (decode more).malformed⟩ := by
    intro more
    induction tokens with
    | nil => rfl
    | cons t tokens ih =>
      rw [List.flatMap_cons, List.append_assoc, decode_token (pull_encode t _), ih]
      rfl
  refine ⟨hfront text, ?_⟩
  have hempty : decode [] = ⟨[], false⟩ := decode_ended rfl
  have h := hfront []
  rwa [List.append_nil, hempty, List.append_nil] at h

end Decode

end HtmlTree.Token
