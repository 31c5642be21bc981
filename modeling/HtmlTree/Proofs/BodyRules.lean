import HtmlTree.Proofs.Closers

/-!
# The rules of the body

Every start tag of the body closes what may be closed and inserts one element; every end tag closes.
Whatever is inserted is neither the document element nor head nor body, since these names have rules
of their own.

* `Core.Meets`   the tokens that come to the rules, by the current node;
* `insertPlain_leads`, `insertForeign_leads`   inserting at the current node;
* `BodyStart.apply_leads`, `BodyEnd.apply_leads`   all start tags and all end tags;
* `inBodyRules_leads`   all tokens.
-/

namespace HtmlTree

variable {α : Type} {k k' : Core} {byBody : Bool} {token : Token} {tag : StartTag}

/-! ## names under the rules -/

namespace BodyStart

/-- the names of the elements that these rules do not open: those around the content, and those that
are closed at once or opened for text only -/
def barredNames : List String := outerNames ++ unopenedNames

/-- the rules for these names -/
def barring : List BodyStart :=
  [ html, body, misplaced, headContent, void, input, quietVoid, thematicBreak, image, textarea, xmp,
    iframe, rawText ]

theorem ofName_barring : ∀ name ∈ barredNames, ofName name ∈ barring := by decide

theorem not_barred {name : String} {rule : BodyStart} (h : ofName name = rule)
    (hr : rule ∉ barring) : name ∉ barredNames := fun hn => by
  have hrule := ofName_barring name hn
  rw [h] at hrule
  exact hr hrule

/-- the rules for the names that the rules on nesting are about -/
def nesting : List BodyStart :=
  [ block, heading, preformatted, form, listItem, description, plaintext, button, anchor, nobr,
    thematicBreak, xmp, headContent ]

theorem ofName_nesting : ∀ name ∈ Nesting.names, ofName name ∈ nesting := by decide

theorem plain {name : String} {rule : BodyStart} (h : ofName name = rule) (hr : rule ∉ nesting) :
    name ∉ Nesting.names := fun hn => by
  have hrule := ofName_nesting name hn
  rw [h] at hrule
  exact hr hrule

end BodyStart

/-! ## where tokens come to the rules of the body -/

/-- whether the rules of the body may get a token when this is the current node -/
def Element.receives (e : Element) : Token → Bool
  | .startTag tag => e.endsForeignContent || e.isAnnotation && tag.name == "svg"
  | .endTag name => !(name == "br" || name == "p") || e.endsForeignContent
  | _ => true

theorem Element.receives_startTag (e : Element) (tag : StartTag) :
    e.receives (.startTag tag) = (e.endsForeignContent || e.isAnnotation && tag.name == "svg") := rfl

/-- in this mode, with a token that the mode's rules may get -/
structure Core.Meets (k : Core) (m : Mode) (token : Token) : Prop extends k.In m where
  receives : ∀ id ∈ k.entries.head?, k.tree.elementSatisfies (·.receives token) id = true

/-- HTML may be inserted where the token comes as in an HTML element -/
theorem Core.Meets.ready (h : k.Meets .inBody token)
    (ht : ∀ e : Element, e.receives token = true → e.endsForeignContent = true) : k.Ready := by
  refine ⟨h.toIn, fun id hid => ?_⟩
  obtain ⟨e, he, hr⟩ := Tree.elementSatisfies_iff.mp (h.receives id hid)
  exact Tree.elementSatisfies_iff.mpr ⟨e, he, ht e hr⟩

theorem Core.Meets.ready_of_startTag (h : k.Meets .inBody (.startTag tag)) (hn : tag.name ≠ "svg") :
    k.Ready := by
  refine h.ready fun e he => ?_
  rw [Element.receives_startTag, beq_false_of_ne hn, Bool.and_false, Bool.or_false] at he
  exact he

theorem Core.Meets.ready_of_endTag {name : String} (h : k.Meets .inBody (.endTag name))
    (hn : name ∈ ["br", "p"]) : k.Ready := by
  refine h.ready fun e he => ?_
  unfold Element.receives at he
  rcases List.mem_cons.mp hn with rfl | hn
  · exact he
  · rw [List.mem_singleton.mp hn] at he
    exact he

/-- there is room for the element of a tag -/
def Core.RoomFor (k : Core) (tag : StartTag) : Prop :=
  k.tree.HasRoom k.entries (.ofTag tag.name tag.attributes .html)

theorem Core.Ready.room (h : k.Ready) (hn : tag.name ∉ Nesting.names) : k.RoomFor tag :=
  .ofPlain h.takes (Element.isHtml_ofTag_self tag) hn

theorem Core.ReadyFor.room {n : Nesting} (h : k.ReadyFor n) (hn : tag.name ∈ n.inner) :
    k.RoomFor tag :=
  .ofClear n h.takes (Element.isHtml_ofTag_self tag) hn h.clear

/-- from the body on an element needs room and nothing else -/
theorem Core.Opens.ofRoom {e : Element} (hm : k.mode.isBody = true)
    (hroom : k.tree.HasRoom k.entries e) : k.Opens e :=
  ⟨hroom, fun hno => absurd (hm.symm.trans hno) Bool.noConfusion⟩

/-! ## inserting at the current node -/

/-- an element that has none of the names that are barred -/
theorem Element.isHtmlOneOf_of_not_barred {name : String} (hn : name ∉ BodyStart.barredNames)
    {e : Element} (he : e.isHtml name = true) :
    e.isHtmlOneOf outerNames = false ∧ e.isHtmlOneOf unopenedNames = false := by
  have hno : ∀ {names : List String}, name ∉ names → e.isHtmlOneOf names = false := fun hnot => by
    rw [← Bool.not_eq_true, Element.isHtmlOneOf_iff, (Element.isHtml_iff.mp he).2]
    exact fun h => hnot h.2
  exact ⟨hno fun h => hn (List.mem_append_left _ h), hno fun h => hn (List.mem_append_right _ h)⟩

theorem insertHtml_leads (h : k.In .inBody) (hn : tag.name ∉ BodyStart.barredNames)
    (hroom : k.RoomFor tag) :
    Leads true (.startTag tag) (insertHtml tag) k fun id k' =>
      k'.In .inBody ∧ k'.tree.isHtml tag.name id = true := by
  obtain ⟨place, hp⟩ := h.exists_at (by decide) (by decide)
  have hbody : k.mode.isBody = true := h.isBody rfl
  obtain ⟨hout, hopen⟩ := Element.isHtmlOneOf_of_not_barred hn (Element.isHtml_ofTag_self tag)
  have hmove : Move true (.startTag tag) k _ :=
    .element (Or.inl rfl) hbody hp.current hout (.ofRoom hbody hroom) (.ofTag tag) hopen
  refine .doing (.insertHtml tag hp) (.one hmove) ⟨h.after (.one hmove) rfl rfl, ?_⟩
  exact Tree.isHtml_attach_new (by rw [Element.isHtml_ofTag, beq_self_eq_true])

theorem insertPlain_leads (h : k.In .inBody) (hn : tag.name ∉ BodyStart.barredNames)
    (hroom : k.RoomFor tag) :
    Leads true (.startTag tag) (insertPlain tag) k fun _ k' => k'.In .inBody :=
  (insertHtml_leads h hn hroom).bind fun _ _ _ hk => .value hk.1

theorem insertImplied_leads {name : String} (h : k.In .inBody)
    (hn : name ∉ BodyStart.barredNames) (ht : token.isStartTag = false)
    (hroom : k.tree.HasRoom k.entries (.bare name .html)) :
    Leads true token (insertImplied name) k fun id k' =>
      k'.In .inBody ∧ k'.entries = id :: k.entries ∧ k'.tree.isHtml name id = true := by
  obtain ⟨place, hp⟩ := h.exists_at (by decide) (by decide)
  have hbody : k.mode.isBody = true := h.isBody rfl
  have hname : (Element.bare name .html).isHtml name = true := beq_self_eq_true name
  obtain ⟨hout, hopen⟩ := Element.isHtmlOneOf_of_not_barred hn hname
  have hmove : Move true token k _ :=
    .element (Or.inl rfl) hbody hp.current hout (.ofRoom hbody hroom) (.ofNoTag ht name) hopen
  refine .doing (.insertImplied name hp) (.one hmove) ⟨h.after (.one hmove) rfl rfl, rfl, ?_⟩
  exact Tree.isHtml_attach_new (beq_self_eq_true name)

theorem insertVoid_leads (h : k.In .inBody) (hn : tag.name ∈ voidNames) (hroom : k.RoomFor tag) :
    Leads true (.startTag tag) (insertVoid tag) k fun _ k' => k'.In .inBody := by
  obtain ⟨place, hp⟩ := h.exists_at (by decide) (by decide)
  have hplace : k.TakesElement place := Or.inl ⟨by rw [h.mode]; rfl, hp.current⟩
  have hvoid := Element.isHtmlOneOf_of_isHtml (Element.isHtml_ofTag_self tag) hn
  have hmove : Move true (.startTag tag) k _ :=
    .leaf hplace (Or.inr hvoid) (.ofRoom (h.isBody rfl) hroom) (.ofTag tag)
  exact .doing (.insertVoid tag hp) (.one hmove) (h.after (.one hmove) rfl rfl)

theorem insertTextOnly_leads (state : TokenizerState) (h : k.In .inBody)
    (hn : tag.name ∈ textOnlyNames) (hroom : k.RoomFor tag) :
    Leads true (.startTag tag) (insertTextOnly tag state) k fun _ _ => True := by
  obtain ⟨place, hp⟩ := h.exists_at (by decide) (by decide)
  have htext := Element.isHtmlOneOf_of_isHtml (Element.isHtml_ofTag_self tag) hn
  refine .doing (.insertTextOnly tag state hp)
    (.one (.textOnly ?_ (Or.inl ⟨?_, hp.current⟩) htext (.ofRoom (h.isBody rfl) hroom)
      (.ofTag tag))) trivial
  · rw [h.mode]
    rfl
  · rw [h.mode]
    rfl

/-- the tags that begin foreign content do not leave it -/
theorem StartTag.stays (h : tag.name = "math" ∨ tag.name = "svg") : tag.breaksOut = false := by
  unfold breaksOut
  rcases h with h | h <;>
    rw [h, show (_ == "font") = false by decide, Bool.false_and, Bool.or_false] <;> decide

/-- a foreign element goes into the current node from the body on -/
theorem insertForeign_leads {ns : Namespace} {place : NodeId} (hm : k.mode.isBody = true)
    (hp : k.At place) (hns : ns ≠ .html) (hstay : tag.breaksOut = false)
    (hroom : k.tree.HasRoom k.entries (.ofForeignTag tag ns)) :
    Leads byBody (.startTag tag) (insertForeign tag ns) k fun _ _ => True := by
  have helem : (Element.ofForeignTag tag ns).ns ≠ .html := hns
  have hopens := Core.Opens.ofRoom hm hroom
  have hmade : (Token.startTag tag).Makes (.ofForeignTag tag ns) := .foreign (.refl _) hns hstay
  by_cases hself : tag.selfClosing = true
  · unfold insertForeign
    rw [if_pos hself]
    have hplace : k.TakesElement place := Or.inl ⟨Mode.hostsElements_of_isBody hm, hp.current⟩
    refine .doing (a := ()) ?_ (.one (.leaf hplace (Or.inl helem) hopens hmade)) trivial
    exact (Does.insertElement _ hp).bind ((Does.popElement _).bind (.useSelfClosing _))
  · unfold insertForeign
    rw [if_neg hself]
    have hno : ∀ names, (Element.ofForeignTag tag ns).isHtmlOneOf names = false := fun names => by
      rw [← Bool.not_eq_true, Element.isHtmlOneOf_iff]
      exact fun ho => helem ho.1
    exact .doing ((Does.insertElement _ hp).bind (.value () _))
      (.one (.element (Or.inr helem) hm hp.current (hno _) hopens hmade (hno _))) trivial

/-- the current node is closed, if it has a name that may be closed by the way -/
theorem popCurrent_leads {name : String} (h : k.In .inBody)
    (hcur : k.entries.head?.any (k.tree.isHtml name) = true) (hn : name ∉ keptNames) :
    Leads true token popElement k fun _ k' =>
      k'.Ready ∧ k' = { k with entries := k.entries.tail } := by
  cases he : k.entries with
  | nil =>
    rw [he] at hcur
    cases hcur
  | cons id rest =>
    rw [he] at hcur
    have hpop := Does.popElement k
    rw [he] at hpop
    have hmove : Move true token k { k with entries := rest } :=
      .drop [id] (h.isBody rfl) he fun x hx => by
        rw [List.mem_singleton.mp hx]
        exact Tree.isHtmlOneOf_eq_false hcur hn
    have hnested := h.sound.nested
    rw [he] at hnested
    have htakes := hnested.takesHtml (Tree.html_of_isHtmlOneOf
      (Tree.isHtmlOneOf_of_isHtml hcur (List.mem_singleton_self name)))
    exact .doing hpop (.one hmove) ⟨⟨h.after (.one hmove) rfl rfl, htakes⟩, rfl⟩

/-! ## start tags -/

/-- a further `body` tag finds the body as the second entry -/
theorem repeatedBody_leads (h : k.In .inBody) (hn : tag.name = "body") :
    Leads true (.startTag tag) (repeatedBody tag) k fun _ _ => True := by
  refine .parseErrorThen _ (.ask fun c hc => ?_)
  subst hc
  split
  · rename_i body hbody
    obtain ⟨hget, hname⟩ := Option.filter_eq_some_iff.mp hbody
    have hmem : body ∈ c.core.entries := List.mem_reverse.mp (List.mem_of_getElem? hget)
    refine .ite (fun _ => ?_) fun _ => .value trivial
    refine .doThen (.framesetNotOk _) (.refl _) (.doing (.mergeAttributes _ _) (.one ?_) trivial)
    exact .merge _ hmem (Tree.isHtmlOneOf_of_isHtml hname (by decide))
      ⟨tag, rfl, rfl, by rw [hn]; exact hname⟩
  · exact .value trivial

theorem startFrameset_leads : Leads true (.startTag tag) (startFrameset tag) k fun _ _ => True :=
  .parseErrorThen _ (.ask fun _ _ => .ite (fun _ => .unsupported) fun _ => .value trivial)

theorem startBlock_leads (h : k.Ready) (hout : tag.name ∉ BodyStart.barredNames)
    (hn : tag.name ∈ Nesting.paragraph.inner) :
    Leads true (.startTag tag) (startBlock tag) k fun _ k' => k'.In .inBody :=
  (closeOpenParagraph_leads h).bind fun _ _ _ hk => insertPlain_leads hk.toIn hout (hk.room hn)

theorem startHeading_leads (h : k.Ready) (hout : tag.name ∉ BodyStart.barredNames)
    (hn : tag.name ∈ Nesting.paragraph.inner) :
    Leads true (.startTag tag) (startHeading tag) k fun _ _ => True := by
  have hheading : ∀ n ∈ headingNames,
      n ∉ keptNames ∧ n ≠ Nesting.paragraph.outer ∧ n ∉ Nesting.boundaryNames := by decide
  refine (closeOpenParagraph_leads h).bind fun _ k' _ hk => .ask fun c hc => ?_
  refine .ite (fun hany => ?_) fun _ => (insertPlain_leads hk.toIn hout (hk.room hn)).forget
  subst hc
  obtain ⟨name, hmem, hcur⟩ := List.any_eq_true.mp hany
  obtain ⟨hkept, hne, hbound⟩ := hheading name hmem
  refine .parseErrorThen _ ((popCurrent_leads hk.toIn hcur hkept).bind fun _ j _ hj => ?_)
  obtain ⟨hready, rfl⟩ := hj
  have hfor : Core.ReadyFor _ .paragraph := ⟨hready, Tree.clear_tail hk.clear hcur hne hbound⟩
  exact (insertPlain_leads hfor.toIn hout (hfor.room hn)).forget

theorem startPreformatted_leads (h : k.Ready) (hout : tag.name ∉ BodyStart.barredNames)
    (hn : tag.name ∈ Nesting.paragraph.inner) :
    Leads true (.startTag tag) (startPreformatted tag) k fun _ _ => True :=
  (startBlock_leads h hout hn).bind fun _ _ _ _ =>
    .doing ((Does.skipNextLineFeed _).bind (.framesetNotOk _)) (.refl _) trivial

/-- the new form is the one of the element pointer -/
theorem startForm_leads (h : k.Ready) (hn : tag.name = "form") :
    Leads true (.startTag tag) (startForm tag) k fun _ _ => True := by
  refine .ask fun c hc => .ite (fun _ => .parseError _ trivial) fun _ => ?_
  refine (closeOpenParagraph_leads h).bind fun _ k' _ hk => ?_
  have hroom : k'.RoomFor tag := hk.room (by rw [hn]; decide)
  refine (insertHtml_leads hk.toIn (by rw [hn]; decide) hroom).bind fun form j _ hj => ?_
  refine .ite (fun _ => ?_) fun _ => .value trivial
  have hset : Does (modify fun c : Constructor => { c with form := some form }) j ()
      { j with form := some form } := .change fun d hd =>
    congrArg (fun j : Core => { j with form := some form }) hd
  refine .doing hset (.one (.setForm fun id hid => ?_)) trivial
  cases hid
  rw [← hn]
  exact hj.2

theorem startListItem_leads {closes : List String} (h : k.Ready)
    (hkept : ∀ n ∈ closes, n ∉ keptNames) (hout : tag.name ∉ BodyStart.barredNames)
    (hn : tag.name ∈ Nesting.paragraph.inner) :
    Leads true (.startTag tag) (startListItem closes tag) k fun _ _ => True :=
  .doThen (.framesetNotOk _) (.refl _) <| (closeListItem_leads h hkept).bind fun _ _ _ hk =>
    (startBlock_leads hk hout hn).forget

theorem startPlaintext_leads (h : k.Ready) (hout : tag.name ∉ BodyStart.barredNames)
    (hn : tag.name ∈ Nesting.paragraph.inner) :
    Leads true (.startTag tag) (startPlaintext tag) k fun _ _ => True :=
  (startBlock_leads h hout hn).bind fun _ _ _ _ => .doing (.requestState _ _) (.refl _) trivial

theorem startMarker_leads (h : k.In .inBody) (hn : tag.name ∉ BodyStart.barredNames)
    (hroom : k.RoomFor tag) :
    Leads true (.startTag tag) (startMarker tag) k fun _ _ => True :=
  (insertPlain_leads h hn hroom).bind fun _ _ _ _ => .doing (.framesetNotOk _) (.refl _) trivial

/-- a button in scope is closed with all that is inside it -/
theorem startButton_leads (h : k.Ready) (hn : tag.name = "button") :
    Leads true (.startTag tag) (startButton tag) k fun _ _ => True := by
  have hout : tag.name ∉ BodyStart.barredNames := by
    rw [hn]
    decide
  have hroom : ∀ {j : Core}, j.ReadyFor .button → j.RoomFor tag := fun hj =>
    hj.room (List.mem_singleton.mpr hn)
  refine .ask fun c hc => .ite (fun hin => ?_) fun hno => ?_ <;> subst hc
  case refine_2 =>
    have hfor : c.core.ReadyFor .button :=
      ⟨h, Nesting.clear_of_not_inScope .default rfl hno⟩
    exact startMarker_leads h.toIn hout (hroom hfor)
  obtain ⟨inside, id, outside, hf, hseal⟩ := Found.ofScope (k := c.core) hin
  refine .parseErrorThen _ ((keepFormattingIn_leads hf).bind fun _ j _ hj => ?_)
  obtain ⟨rfl, hform⟩ := hj
  obtain ⟨rest, hr, hdoes, hmove⟩ := hf.implied none (h.isBody rfl) (by decide)
  refine .doThen hdoes (.one (hmove true _)) ?_
  refine .doThen (hf.popUntil hr) (.one (hf.drop h.toIn (by decide) hform hseal hr)) ?_
  have hready := hf.closed h.toIn (by decide) hform hseal
  have hclear : Nesting.button.Clear c.core.tree outside := hf.clear h.sound
  have hfor : Core.ReadyFor { c.core with entries := outside } .button := ⟨hready, hclear⟩
  exact startMarker_leads hready.toIn hout (hroom hfor)

/-- since no template is open, what seals off an anchor is what bounds the search for one -/
theorem clear_of_not_openAnchor {c : Constructor} (hs : c.core.Sound)
    (h : ¬c.hasOpenAnchor = true) : Nesting.anchor.Clear c.core.tree c.core.entries := by
  unfold Nesting.Clear
  rw [← Bool.not_eq_true, OpenElements.reaches_congr (fun _ _ => rfl) fun id hid => ?_]
  · exact h
  · have hsplit : c.core.tree.isHtmlOneOf (sealNames ++ ["template"]) id = _ :=
      c.core.tree.isHtmlOneOf_append sealNames ["template"] id
    rw [Tree.isHtmlOneOf_singleton, hs.nested.no_template hid, Bool.or_false] at hsplit
    exact hsplit.symm

theorem startAnchor_leads (h : k.Ready) (hn : tag.name = "a") :
    Leads true (.startTag tag) (startAnchor tag) k fun _ _ => True := by
  refine .ask fun c hc => .ite (fun _ => .unsupported) fun hno => ?_
  subst hc
  have hfor : c.core.ReadyFor .anchor := ⟨h, clear_of_not_openAnchor h.sound hno⟩
  refine (insertPlain_leads h.toIn ?_ (hfor.room (List.mem_singleton.mpr hn))).forget
  rw [hn]
  decide

theorem startNobr_leads (h : k.Ready) (hn : tag.name = "nobr") :
    Leads true (.startTag tag) (startNobr tag) k fun _ _ => True := by
  refine .ask fun c hc => .ite (fun _ => .unsupported) fun hno => ?_
  subst hc
  have hfor : c.core.ReadyFor .nobr :=
    ⟨h, Nesting.clear_of_not_inScope .default rfl hno⟩
  refine (insertPlain_leads h.toIn ?_ (hfor.room (List.mem_singleton.mpr hn))).forget
  rw [hn]
  decide

theorem startVoid_leads (h : k.In .inBody) (hn : tag.name ∈ voidNames) (hroom : k.RoomFor tag) :
    Leads true (.startTag tag) (startVoid tag) k fun _ _ => True :=
  (insertVoid_leads h hn hroom).bind fun _ _ _ _ => .doing (.framesetNotOk _) (.refl _) trivial

theorem startInput_leads (h : k.In .inBody) (hn : tag.name ∈ voidNames) (hroom : k.RoomFor tag) :
    Leads true (.startTag tag) (startInput tag) k fun _ _ => True :=
  (insertVoid_leads h hn hroom).bind fun _ _ _ _ =>
    .ite (fun _ => .doing (.framesetNotOk _) (.refl _) trivial) fun _ => .value trivial

theorem startThematicBreak_leads (h : k.Ready) (hn : tag.name = "hr") :
    Leads true (.startTag tag) (startThematicBreak tag) k fun _ _ => True :=
  (closeOpenParagraph_leads h).bind fun _ _ _ hk =>
    startVoid_leads hk.toIn (by rw [hn]; decide) (hk.room (by rw [hn]; decide))

theorem startTextarea_leads (h : k.In .inBody) (hn : tag.name ∈ textOnlyNames)
    (hroom : k.RoomFor tag) : Leads true (.startTag tag) (startTextarea tag) k fun _ _ => True :=
  (insertTextOnly_leads _ h hn hroom).bind fun _ _ _ _ =>
    .doing ((Does.skipNextLineFeed _).bind (.framesetNotOk _)) (.refl _) trivial

theorem startXmp_leads (h : k.Ready) (hn : tag.name = "xmp") :
    Leads true (.startTag tag) (startXmp tag) k fun _ _ => True :=
  (closeOpenParagraph_leads h).bind fun _ _ _ hk => .doThen (.framesetNotOk _) (.refl _)
    (insertTextOnly_leads _ hk.toIn (by rw [hn]; decide) (hk.room (by rw [hn]; decide)))

theorem startIframe_leads (h : k.In .inBody) (hn : tag.name ∈ textOnlyNames)
    (hroom : k.RoomFor tag) : Leads true (.startTag tag) (startIframe tag) k fun _ _ => True :=
  .doThen (.framesetNotOk _) (.refl _) (insertTextOnly_leads _ h hn hroom)

theorem startNoscript_leads (h : k.In .inBody) (hn : tag.name = "noscript")
    (hroom : k.RoomFor tag) : Leads true (.startTag tag) (startNoscript tag) k fun _ _ => True :=
  .ask fun _ _ => .ite (fun _ => insertTextOnly_leads _ h (by rw [hn]; decide) hroom)
    fun _ => (insertPlain_leads h (by rw [hn]; decide) hroom).forget

/-- an option in an option ends the outer one -/
theorem startOption_leads (h : k.Ready) (hn : tag.name ∉ BodyStart.barredNames)
    (hplain : tag.name ∉ Nesting.names) :
    Leads true (.startTag tag) (startOption tag) k fun _ _ => True := by
  refine .ask fun c hc => .ite (fun hcur => ?_) fun _ =>
    (insertPlain_leads h.toIn hn (h.room hplain)).forget
  subst hc
  exact (popCurrent_leads h.toIn hcur (by decide)).bind fun _ _ _ hk =>
    (insertPlain_leads hk.1.toIn hn (hk.1.room hplain)).forget

theorem startRuby_leads {spared : Option String} {expected : List String} (h : k.Ready)
    (hn : tag.name ∉ BodyStart.barredNames) (hplain : tag.name ∉ Nesting.names) :
    Leads true (.startTag tag) (startRuby spared expected tag) k fun _ _ => True := by
  refine .ask fun c hc => .ite (fun _ => ?_) fun _ =>
    (insertPlain_leads h.toIn hn (h.room hplain)).forget
  have hmove : Move true (.startTag tag) k _ := generateImpliedEndTags_move spared (h.isBody rfl)
  have hk : Core.Ready { k with entries := k.entries.dropWhile (k.tree.implied spared) } := by
    refine ⟨h.toIn.after (.one hmove) rfl rfl, ?_⟩
    have hnested := h.sound.nested
    have htakes := h.takes
    rw [← List.takeWhile_append_dropWhile (l := k.entries)] at hnested htakes
    exact hnested.takesHtml_drop htakes fun x hx =>
      Tree.html_of_implied (List.mem_takeWhile_imp hx)
  refine .doThen (generateImpliedEndTags_does spared k) (.one hmove) ?_
  refine (Leads.expectCurrent (Q := fun _ j => j.Ready) _ _ hk).bind fun _ _ _ hj => ?_
  exact (insertPlain_leads hj.toIn hn (hj.room hplain)).forget

/-! ### all start tags -/

/-- an `image` tag goes on as an `img` one -/
theorem startImage_leads (h : k.In .inBody) (hn : tag.name = "image") :
    Leads true (.startTag tag) (BodyStart.image.apply tag) k (Settled (.startTag tag) k) := by
  refine .parseErrorThen _ (.value ⟨Or.inr ⟨tag, rfl, hn, rfl⟩, h.active, ?_⟩)
  rw [h.mode]
  have himg : roundsOf .inBody (.startTag { tag with name := "img" }) = 1 := rfl
  have himage : roundsOf .inBody (.startTag tag) = 2 := by
    show 1 + (tag.name == "image").toNat = 2
    rw [hn]
    rfl
  rw [himg, himage]
  exact Nat.one_lt_two

/-- the root element of a namespace has room where HTML has, `svg` in annotations as well -/
theorem Core.Meets.foreignRoom {ns : Namespace} (h : k.Meets .inBody (.startTag tag))
    (hn : tag.name = "math" ∧ ns = .mathMl ∨ tag.name = "svg" ∧ ns = .svg) :
    k.tree.HasRoom k.entries (.ofForeignTag tag ns) := by
  refine .ofForeign (fun hns => ?_) fun id hid => ?_
  · have hhtml : ns = .html := hns
    rcases hn with ⟨_, rfl⟩ | ⟨_, rfl⟩ <;> cases hhtml
  · obtain ⟨p, hp, hr⟩ := Tree.elementSatisfies_iff.mp (h.receives id hid)
    refine Tree.elementSatisfies_iff.mpr ⟨p, hp, ?_⟩
    rw [Element.receives_startTag] at hr
    rcases hn with ⟨hname, rfl⟩ | ⟨hname, rfl⟩ <;> rw [hname] at hr
    · have hmath : (Element.ofForeignTag tag .mathMl).localName = "math" := hname
      rw [show ("math" == "svg") = false from rfl, Bool.and_false, Bool.or_false] at hr
      rw [Element.mayHold_of_mathMl rfl, hmath, hr]
      exact Bool.or_true _
    · have hsvg : (Element.ofForeignTag tag .svg).localName = "svg" := by
        show adjustTagName .svg tag.name = "svg"
        rw [hname]
        decide
      rw [beq_self_eq_true, Bool.and_true] at hr
      rw [Element.mayHold_of_svg rfl, hsvg, hr]
      exact Bool.or_true _

/-- **What a start tag of the body leads to.** -/
theorem BodyStart.apply_leads {rule : BodyStart} (h : k.Meets .inBody (.startTag tag))
    (hr : BodyStart.ofName tag.name = rule) :
    Leads true (.startTag tag) (rule.apply tag) k (Settled (.startTag tag) k) := by
  have hin := h.toIn
  have hout := not_barred hr
  have hplain := plain hr
  have hmem := fun names : List String => mem_of_rule names hr
  have hready : rule ≠ .svg → k.Ready := fun hne => h.ready_of_startTag fun hname => hne <| by
    rw [← hr, hname]
    decide
  cases rule with
  | html =>
    have hname := List.mem_singleton.mp (hmem ["html"] (by decide) (by decide))
    exact (repeatedHtml_leads hin (by decide) hname).settled
  | headContent =>
    obtain ⟨place, hp⟩ := hin.exists_at (by decide) (by decide)
    refine (headContent_leads (by rw [h.mode]; rfl) (by rw [h.mode]; rfl) hp
      (hready (by decide)).takes (fun _ hno => ?_) fun hno => ?_).settled
    · rw [hin.isBody rfl] at hno
      cases hno
    · have hhead := hmem headContentNames (by decide) (by decide)
      rw [hno] at hhead
      exact absurd hhead (by decide)
  | body =>
    have hname := List.mem_singleton.mp (hmem ["body"] (by decide) (by decide))
    exact (repeatedBody_leads hin hname).settled
  | frameset => exact startFrameset_leads.settled
  | block =>
    have hname := hmem Nesting.paragraph.inner (by decide) (by decide)
    exact (startBlock_leads (hready (by decide)) (hout (by decide)) hname).settled
  | heading =>
    have hname := hmem Nesting.paragraph.inner (by decide) (by decide)
    exact (startHeading_leads (hready (by decide)) (hout (by decide)) hname).settled
  | preformatted =>
    have hname := hmem Nesting.paragraph.inner (by decide) (by decide)
    exact (startPreformatted_leads (hready (by decide)) (hout (by decide)) hname).settled
  | form =>
    have hname := List.mem_singleton.mp (hmem ["form"] (by decide) (by decide))
    exact (startForm_leads (hready (by decide)) hname).settled
  | listItem | description =>
    have hname := hmem Nesting.paragraph.inner (by decide) (by decide)
    exact (startListItem_leads (hready (by decide)) (by decide) (hout (by decide)) hname).settled
  | plaintext =>
    have hname := hmem Nesting.paragraph.inner (by decide) (by decide)
    exact (startPlaintext_leads (hready (by decide)) (hout (by decide)) hname).settled
  | button =>
    have hname := List.mem_singleton.mp (hmem ["button"] (by decide) (by decide))
    exact (startButton_leads (hready (by decide)) hname).settled
  | anchor =>
    have hname := List.mem_singleton.mp (hmem ["a"] (by decide) (by decide))
    exact (startAnchor_leads (hready (by decide)) hname).settled
  | nobr =>
    have hname := List.mem_singleton.mp (hmem ["nobr"] (by decide) (by decide))
    exact (startNobr_leads (hready (by decide)) hname).settled
  | formatting | other =>
    have hroom := (hready (by decide)).room (hplain (by decide))
    exact (insertPlain_leads hin (hout (by decide)) hroom).settled
  | marker =>
    have hroom := (hready (by decide)).room (hplain (by decide))
    exact (startMarker_leads hin (hout (by decide)) hroom).settled
  | unsupported => exact .unsupported
  | void =>
    have hroom := (hready (by decide)).room (hplain (by decide))
    exact (startVoid_leads hin (hmem _ (by decide) (by decide)) hroom).settled
  | input =>
    have hroom := (hready (by decide)).room (hplain (by decide))
    exact (startInput_leads hin (hmem _ (by decide) (by decide)) hroom).settled
  | quietVoid =>
    have hroom := (hready (by decide)).room (hplain (by decide))
    exact (insertVoid_leads hin (hmem _ (by decide) (by decide)) hroom).settled
  | thematicBreak =>
    have hname := List.mem_singleton.mp (hmem ["hr"] (by decide) (by decide))
    exact (startThematicBreak_leads (hready (by decide)) hname).settled
  | image =>
    exact startImage_leads hin (List.mem_singleton.mp (hmem ["image"] (by decide) (by decide)))
  | textarea =>
    have hroom := (hready (by decide)).room (hplain (by decide))
    exact (startTextarea_leads hin (hmem _ (by decide) (by decide)) hroom).settled
  | xmp =>
    have hname := List.mem_singleton.mp (hmem ["xmp"] (by decide) (by decide))
    exact (startXmp_leads (hready (by decide)) hname).settled
  | iframe =>
    have hroom := (hready (by decide)).room (hplain (by decide))
    exact (startIframe_leads hin (hmem _ (by decide) (by decide)) hroom).settled
  | rawText =>
    have hroom := (hready (by decide)).room (hplain (by decide))
    exact (insertTextOnly_leads _ hin (hmem _ (by decide) (by decide)) hroom).settled
  | noscript =>
    have hname := List.mem_singleton.mp (hmem ["noscript"] (by decide) (by decide))
    have hroom := (hready (by decide)).room (hplain (by decide))
    exact (startNoscript_leads hin hname hroom).settled
  | option =>
    exact (startOption_leads (hready (by decide)) (hout (by decide)) (hplain (by decide))).settled
  | rubyBase | rubyText =>
    exact (startRuby_leads (hready (by decide)) (hout (by decide)) (hplain (by decide))).settled
  | math =>
    obtain ⟨place, hp⟩ := hin.exists_at (by decide) (by decide)
    have hname := List.mem_singleton.mp (hmem ["math"] (by decide) (by decide))
    exact (insertForeign_leads (hin.isBody rfl) hp (by decide) (StartTag.stays (Or.inl hname))
      (h.foreignRoom (Or.inl ⟨hname, rfl⟩))).settled
  | svg =>
    obtain ⟨place, hp⟩ := hin.exists_at (by decide) (by decide)
    have hname := List.mem_singleton.mp (hmem ["svg"] (by decide) (by decide))
    exact (insertForeign_leads (hin.isBody rfl) hp (by decide) (StartTag.stays (Or.inr hname))
      (h.foreignRoom (Or.inr ⟨hname, rfl⟩))).settled
  | misplaced => exact .parseError_settled _

/-! ## end tags -/

namespace BodyEnd

/-- of the elements that leave the stack in no common way only the head has no rule of its own -/
theorem ofName_kept : ∀ name ∈ keptNames, ofName name = other → name = "head" := by decide

end BodyEnd

/-- no head is open in the body -/
theorem Tree.BodyStack.no_head {t : Tree} {ids : List NodeId} (h : t.BodyStack ids) :
    ∀ id ∈ ids, t.isHtml "head" id = false := by
  obtain ⟨inner, outer, rfl, hs, hn⟩ := h
  intro id hid
  rw [← Bool.not_eq_true]
  intro hhead
  rcases List.mem_append.mp hid with hid | hid
  · have hout := isHtmlOneOf_of_isHtml hhead (show "head" ∈ outerNames by decide)
    rw [hn id hid] at hout
    cases hout
  · obtain ⟨name, hmem, hname⟩ := hs.mem hid
    have hl := (isHtml_iff.mp hhead).symm.trans (isHtml_iff.mp hname)
    cases hl
    exact absurd hmem (by decide)

theorem endParagraph_leads (h : k.Ready) (ht : token.isStartTag = false) :
    Leads true token (endParagraph token) k fun _ _ => True := by
  refine .ask fun c hc => .ite (fun hno => .parseErrorThen _ ?_) fun hin => ?_ <;> subst hc
  · rw [Bool.not_eq_true', ← Bool.not_eq_true] at hno
    have hclear : Nesting.paragraph.Clear c.core.tree c.core.entries :=
      Nesting.clear_of_not_inScope .button rfl hno
    have hp : (Element.bare "p" .html).isHtml "p" = true := rfl
    have hroom : c.core.tree.HasRoom c.core.entries (.bare "p" .html) :=
      .ofClear .paragraph h.takes hp (by decide) hclear
    refine (insertImplied_leads h.toIn (by decide) ht hroom).bind fun id j _ hj => ?_
    obtain ⟨hbody, he, hname⟩ := hj
    have hf : Found j ["p"] [] id c.core.entries :=
      ⟨he, Tree.isHtmlOneOf_of_isHtml hname (List.mem_singleton_self _),
        fun x hx => absurd hx List.not_mem_nil⟩
    exact (closeParagraph_leads hbody hf fun x hx => absurd hx List.not_mem_nil).forget
  · rw [Bool.not_eq_true', Bool.not_eq_false] at hin
    obtain ⟨inside, id, outside, hf, hseal⟩ := Found.ofScope (k := c.core) hin
    exact (closeParagraph_leads h.toIn hf hseal).forget

theorem endLineBreak_leads (h : k.Ready) (ht : token.isStartTag = false) :
    Leads true token endLineBreak k fun _ _ => True := by
  obtain ⟨place, hp⟩ := h.exists_at (by decide) (by decide)
  have hplace : k.TakesElement place := Or.inl ⟨by rw [h.mode]; rfl, hp.current⟩
  have hbr : (Element.bare "br" .html).isHtml "br" = true := rfl
  have hroom : k.tree.HasRoom k.entries (.bare "br" .html) := .ofPlain h.takes hbr (by decide)
  have hmove : Move true token k (k.append place (.element (.bare "br" .html))) :=
    .leaf hplace (Or.inr (by decide)) (.ofRoom (h.isBody rfl) hroom) (.ofNoTag ht "br")
  refine .parseErrorThen _ (.doing (a := ()) ?_ (.one hmove) trivial)
  exact (Does.insertImplied "br" hp).bind ((Does.popElement _).bind (.framesetNotOk _))

/-- the end of the document goes on behind the body -/
theorem endHtml_leads (h : k.In .inBody) :
    Leads true (.endTag "html") endHtml k (Settled (.endTag "html") k) := by
  refine (closeBody_leads h).bind fun ended k' _ hk =>
    .ite (fun he => .value ?_) fun _ => .value trivial
  obtain ⟨hstop, hmode⟩ := hk
  rw [he, if_pos rfl] at hmode
  refine ⟨Or.inl rfl, hstop, ?_⟩
  rw [hmode, h.mode]
  decide

/-- **What an end tag of the body leads to.** -/
theorem BodyEnd.apply_leads {rule : BodyEnd} {name : String} (hm : k.Meets .inBody (.endTag name))
    (hr : BodyEnd.ofName name = rule) :
    Leads true (.endTag name) (rule.apply name) k (Settled (.endTag name) k) := by
  have h := hm.toIn
  have hmem := fun names : List String => mem_of_rule names hr
  cases rule with
  | template => exact .unsupported
  | body =>
    exact Leads.settled (Q := fun _ _ => True) <|
      (closeBody_leads h).bind fun _ _ _ _ => .value trivial
  | html =>
    have hname := List.mem_singleton.mp (hmem ["html"] (by decide) (by decide))
    subst hname
    exact endHtml_leads h
  | block =>
    have hname := hmem blockEndNames (by decide) (by decide)
    have hkept : ∀ n ∈ blockEndNames, n ∉ keptNames ∧ n ∉ markerNames ∧ n ∉ impliedEndNames := by
      decide
    obtain ⟨hk, hmarker, hi⟩ := hkept name hname
    exact (closeInScope_leads h hk hmarker fun hn => absurd hn hi).settled
  | form => exact (closeForm_leads h).settled
  | paragraph =>
    exact (endParagraph_leads (hm.ready_of_endTag (hmem _ (by decide) (by decide))) rfl).settled
  | listItem =>
    have hname := List.mem_singleton.mp (hmem ["li"] (by decide) (by decide))
    subst hname
    exact (closeInScope_leads h (by decide) (by decide) fun _ => rfl).settled
  | description =>
    have hname := hmem ["dd", "dt"] (by decide) (by decide)
    have hkept : ∀ n ∈ ["dd", "dt"], n ∉ keptNames ∧ n ∉ markerNames := by decide
    obtain ⟨hk, hmarker⟩ := hkept name hname
    exact (closeInScope_leads h hk hmarker fun _ => rfl).settled
  | heading => exact (closeHeading_leads h).settled
  | formatting =>
    exact (closeFormatting_leads h (hmem formattingNames (by decide) (by decide))).settled
  | marker => exact (closeSeal_leads h (hmem sealNames (by decide) (by decide))).settled
  | lineBreak =>
    exact (endLineBreak_leads (hm.ready_of_endTag (hmem _ (by decide) (by decide))) rfl).settled
  | other =>
    by_cases hkept : name ∈ keptNames
    · rw [ofName_kept name hkept hr]
      exact (closeOther_idle (h.body rfl).no_head).settled
    · exact (closeOther_leads h hkept).settled

/-! ## all tokens -/

theorem bodyCharacter_leads {ch : Char} (h : k.In .inBody) :
    Leads true (.character ch) (bodyCharacter ch) k fun _ _ => True := by
  obtain ⟨place, hp⟩ := h.exists_at (by decide) (by decide)
  refine .ite (fun _ => .parseError _ trivial) fun _ => ?_
  refine (Leads.insertText (Q := fun _ _ => True) ch rfl (h.takesText rfl ch) hp
    fun _ => trivial).bind ?_
  refine fun _ _ _ _ => ?_
  exact .ite (fun _ => .doing (.framesetNotOk _) (.refl _) trivial) fun _ => .value trivial

theorem stopParsing_leads (hm : k.mode.isBody = true) :
    Leads byBody .endOfFile stopParsing k fun _ _ => True :=
  .doing (.stopParsing k) (.one (.stop rfl hm)) trivial

/-- **What the rules of the body lead to.** -/
theorem inBodyRules_leads (hm : k.Meets .inBody token) :
    Leads true token (inBodyRules token) k (Settled token k) := by
  have h := hm.toIn
  obtain ⟨place, hp⟩ := h.exists_at (by decide) (by decide)
  unfold inBodyRules
  split
  · exact (bodyCharacter_leads h).settled
  · exact (insertComment_leads h (by decide) hp).settled
  · exact .parseError_settled _
  · exact BodyStart.apply_leads hm rfl
  · exact BodyEnd.apply_leads hm rfl
  · refine Leads.settled (Q := fun _ _ => True) (.ask fun _ _ => .complainThen _ ?_)
    exact stopParsing_leads (h.isBody rfl)

end HtmlTree
