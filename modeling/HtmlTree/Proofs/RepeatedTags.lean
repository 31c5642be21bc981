import HtmlTree.Proofs.Characters
import HtmlTree.Proofs.FirstValues

/-!
# Further `html` and `body` tags

The `html` and the `body` element stay open, and a further start tag of the same name gives its
attributes to the element that is there.  An `html` tag does so from every mode outside texts,
unless it comes in foreign content, where it is an element like others; a `body` tag leaves foreign
content and the modes behind the body first.

* `Tree.Enriched`          all elements of a name gain attributes;
* `repeatedHtml_covered`, `repeatedBody_covered`   the rules for further tags;
* `dispatch_htmlTag`, `rounds_body`   what the rounds of such a tag do;
* `Constructor.gives`      the attributes that a token has for the elements of a name;
* `process_enriched`       every token gives these.
-/

namespace HtmlTree

variable {k : Core} {m : Mode} {token : Token} {tag : StartTag} {id place : NodeId} {name : String}

/-! ## the elements of a name -/

namespace Tree
variable {t u v : Tree} {outer inner : List String}

/-- the elements of this name gain these attributes, so far as they do not have them yet -/
def Enriched (t : Tree) (name : String) (given : List TagAttribute) (u : Tree) : Prop :=
  ∀ id e, t.element? id = some e → e.isHtml name = true →
    u.element? id = some { e with attributes := e.attributes.union given }

theorem enriched_attach (t : Tree) (place : NodeId) (d : NodeData) (name : String) :
    t.Enriched name [] (t.attach place d) := fun id e he _ => by
  rw [element?_attach_old d (index_lt_of_element? he)]
  exact he

/-- there are no two HTML elements of this name -/
def Single (t : Tree) (name : String) : Prop :=
  ∀ x y, t.isHtml name x = true → t.isHtml name y = true → x = y

theorem Single.enriched (h : t.Single name) (hid : t.isHtml name id = true)
    (given : List TagAttribute) : t.Enriched name given (t.modifyData id (.merge given)) :=
  fun x e he hname => by
    rw [element?_merge, if_pos (h x id (elementSatisfies_iff.mpr ⟨e, he, hname⟩) hid), he]
    rfl

theorem Framed.html_mem (h : t.Framed outer inner) (hid : t.isHtml "html" id = true) :
    "html" ∈ outer := by
  obtain ⟨name, hmem, hname⟩ := h.outer.mem (h.mem_outer hid)
  by_cases he : name = "html"
  · exact he ▸ hmem
  · rw [isHtml_eq_false hid he] at hname
    cases hname

theorem Framed.body_mem (h : t.Framed outer inner) (hid : t.isHtml "body" id = true) :
    "body" ∈ inner := by
  obtain ⟨html, hp, hhtml⟩ := h.body id hid
  have hkid : id ∈ t.elementChildren html :=
    mem_elementChildren.mpr ⟨h.planted.listed id html hp, isKind_of_isHtml hid⟩
  obtain ⟨name, hmem, hname⟩ := (h.inner html (h.mem_outer hhtml)).mem hkid
  by_cases he : name = "body"
  · exact he ▸ hmem
  · rw [isHtml_eq_false hid he] at hname
    cases hname

end Tree

namespace Core.Framed

theorem single_html (hf : k.Framed) : k.tree.Single "html" := fun x y hx hy => by
  have hnd := k.outerMode.nodup_frame.1
  exact Option.some.inj ((hf.tree.htmlElement? hnd hx).symm.trans (hf.tree.htmlElement? hnd hy))

theorem single_body (hf : k.Framed) : k.tree.Single "body" := fun x y hx hy => by
  obtain ⟨hnd, hnd'⟩ := k.outerMode.nodup_frame
  exact Option.some.inj
    ((hf.tree.bodyElement? hnd hnd' hx).symm.trans (hf.tree.bodyElement? hnd hnd' hy))

/-- where there is an `html` element it is open -/
theorem mode_of_html (hf : k.Framed) (h : k.In m) (hm : m ≠ .text)
    (hid : k.tree.isHtml "html" id = true) : m ≠ .initial ∧ m ≠ .beforeHtml := by
  have hmem := (hf.of_mode h.sound h.mode hm).html_mem hid
  constructor <;> rintro rfl <;> cases hmem

/-- where there is a body the mode is one of its modes -/
theorem isBody_of_body (hf : k.Framed) (h : k.In m) (hm : m ≠ .text)
    (hid : k.tree.isHtml "body" id = true) : m.isBody = true := by
  have hmem := (hf.of_mode h.sound h.mode hm).body_mem hid
  revert hmem
  cases m <;> decide

end Core.Framed

/-! ## the rules for further tags -/

theorem Core.In.no_template {c : Constructor} (h : c.core.In m) :
    c.openElements.containsHtml c.tree "template" = false := by
  rw [← Bool.not_eq_true]
  intro hany
  obtain ⟨x, hx, hname⟩ := List.any_eq_true.mp hany
  exact Bool.noConfusion ((h.sound.nested.no_template hx).symm.trans hname)

theorem repeatedHtml_covered (h : k.In m) (hid : k.entries.getLast? = some id) :
    Covered (repeatedHtml tag) k fun _ j =>
      j.tree = k.tree.modifyData id (.merge tag.attributes) := by
  refine .parseErrorThen _ (.ask fun c hc => ?_)
  subst hc
  rw [if_neg (by rw [h.no_template]; decide)]
  rw [show c.openElements.first? = some id from hid]
  exact Ends.change fun d hd => by rw [← hd]; rfl

theorem repeatedBody_covered (h : k.In .inBody) :
    Covered (repeatedBody tag) k fun _ j => ∃ id, k.tree.isHtml "body" id = true ∧
      j.tree = k.tree.modifyData id (.merge tag.attributes) := by
  obtain ⟨inside, outer, he, hs, _⟩ := h.stack (by decide)
  cases hs with
  | @cons _ body _ _ hbody hs =>
    cases hs with
    | @cons _ html _ _ hhtml hs =>
      cases hs
      refine .parseErrorThen _ (.ask fun c hc => ?_)
      subst hc
      have hsecond : c.openBody? = some body := by
        refine Option.filter_eq_some_iff.mpr ⟨?_, hbody⟩
        show c.core.entries.reverse[1]? = some body
        rw [he, List.reverse_append]
        rfl
      rw [hsecond]
      dsimp only
      rw [if_pos (by rw [h.no_template]; decide)]
      refine (Does.framesetNotOk c.core).andThen (Ends.change fun d hd => ⟨body, hbody, ?_⟩)
      rw [← hd]
      rfl

/-! ## one round -/

theorem foreignElement_covered (hp : k.At place) (ns : Namespace) :
    Covered (insertForeign tag ns) k fun _ j => ∃ d, j.tree = k.tree.attach place d := by
  refine (Does.insertElement (.ofForeignTag tag ns) hp).andThen ?_
  split
  · exact (Does.popElement _).andThen (Ends.change fun d hd => ⟨_, congrArg Core.tree hd⟩)
  · exact .value ⟨_, rfl⟩

/-- in foreign content an `html` tag makes an element of its own -/
theorem foreignStage_html (h : k.In m) (hn : tag.name = "html")
    (hf : k.isForeign (.startTag tag) = true) :
    Covered (foreignStage (.startTag tag)) k fun v j =>
      v = .done ∧ ∃ place d, j.tree = k.tree.attach place d := by
  refine foreignStage_of_foreign h.sound hf fun ns place hp => ?_
  have hstays : tag.breaksOut = false := by
    unfold StartTag.breaksOut
    rw [hn]
    rfl
  show Covered (if tag.breaksOut = true then _ else _) k _
  rw [if_neg (Bool.eq_false_iff.mp hstays)]
  refine Ends.bind (foreignElement_covered hp ns) ?_
  rintro _ j ⟨d, hd⟩
  exact Ends.value ⟨rfl, place, d, hd⟩

/-- a further `html` tag, in whatever mode -/
theorem modeRules_html (h : k.In m) (hm : m ≠ .text) (hthere : m ≠ .initial ∧ m ≠ .beforeHtml)
    (hn : tag.name = "html") (hid : k.entries.getLast? = some id) :
    Covered (modeRules m (.startTag tag)) k fun v j =>
      v = .done ∧ j.tree = k.tree.modifyData id (.merge tag.attributes) := by
  have hmerge : Covered (finished (repeatedHtml tag)) k fun v j =>
      v = .done ∧ j.tree = k.tree.modifyData id (.merge tag.attributes) :=
    Ends.bind (show Covered (repeatedHtml tag) k _ from repeatedHtml_covered h hid)
      fun _ _ hj => Ends.value ⟨rfl, hj⟩
  cases m with
  | initial => exact absurd rfl hthere.1
  | beforeHtml => exact absurd rfl hthere.2
  | text => exact absurd rfl hm
  | beforeHead | inHeadNoscript | afterHead | afterBody | afterAfterBody =>
    show Covered (if tag.name = "html" then _ else _) k _
    rw [if_pos hn]
    exact hmerge
  | inHead =>
    refine .ask fun c _ => ?_
    rw [hn, show HeadStart.ofName? c.options.scripting "html" = none by rfl]
    dsimp only
    rw [if_pos rfl]
    exact hmerge
  | inBody =>
    show Covered ((BodyStart.ofName tag.name).apply tag) k _
    rw [hn, show BodyStart.ofName "html" = .html by decide]
    exact hmerge
  | _ => exact (h.stack (by decide)).elim

/-- **A further `html` tag enriches the `html` element**, except in foreign content. -/
theorem dispatch_htmlTag (h : k.In m) (hf : k.Framed) (hm : m ≠ .text) (hn : tag.name = "html")
    (hid : k.tree.isHtml "html" id = true) :
    Covered (dispatch (.startTag tag)) k fun v j => v = .done ∧ k.tree.Enriched "html"
      (if k.isForeign (.startTag tag) then [] else tag.attributes) j.tree := by
  have hthere := hf.mode_of_html h hm hid
  cases hforeign : k.isForeign (.startTag tag) with
  | true =>
    refine Ends.bind (show Covered _ k _ from foreignStage_html h hn hforeign) ?_
    rintro _ j ⟨rfl, place, d, hd⟩
    exact Ends.value ⟨rfl, hd ▸ Tree.enriched_attach k.tree place d "html"⟩
  | false =>
    obtain ⟨place, hp⟩ := h.exists_at hthere.1 hthere.2
    obtain ⟨last, hlast⟩ : ∃ last, k.entries.getLast? = some last :=
      Option.isSome_iff_exists.mp <| List.getLast?_isSome.mpr <|
        List.ne_nil_of_mem (List.mem_of_mem_head? hp.current)
    have hhtml := (h.stack hm).getLast? hlast
    refine dispatch_of_html h hforeign ?_
    refine Ends.mono (modeRules_html h hm hthere hn hlast) ?_ fun _ _ he => he
    rintro _ j ⟨rfl, hj⟩
    exact ⟨rfl, hj ▸ hf.single_html.enriched hhtml tag.attributes⟩

/-- a `body` tag leaves foreign content -/
theorem foreignStage_body (h : k.In m) (hn : tag.name = "body") :
    Covered (foreignStage (.startTag tag)) k fun v j =>
      v = .toMode ∧ j.tree = k.tree ∧ j.In m := by
  have hstage : Covered (foreignStage (.startTag tag)) k fun v j =>
      v = .toMode ∧ j.tree = k.tree := by
    cases hforeign : k.isForeign (.startTag tag) with
    | false =>
      refine Ends.mono (foreignStage_of_html hforeign) ?_ fun _ _ he => he.elim
      rintro _ _ ⟨rfl, rfl⟩
      exact ⟨rfl, rfl⟩
    | true =>
      refine foreignStage_of_foreign h.sound hforeign fun ns place hp => ?_
      have hbreaks : tag.breaksOut = true := by
        unfold StartTag.breaksOut
        rw [hn]
        rfl
      show Covered (if tag.breaksOut = true then _ else _) k _
      rw [if_pos hbreaks]
      refine .parseErrorThen _ (Ends.bind (P := fun _ j => j.tree = k.tree) ?_
        fun _ _ hj => Ends.value ⟨rfl, hj⟩)
      exact Ends.change fun c hc => show c.core.tree = k.tree by rw [hc]
  have hleads : Leads true (.startTag tag) (foreignStage (.startTag tag)) k _ := foreignStage_leads h
  refine Ends.mono (Ends.and hstage hleads) ?_ fun _ _ he => he.1
  rintro v j ⟨⟨hv, hj⟩, _, hmeets⟩
  exact ⟨hv, hj, (hmeets hv).toIn⟩

theorem bodyRules_body (h : k.In .inBody) (hone : k.tree.Single "body") (hn : tag.name = "body") :
    Covered (modeRules .inBody (.startTag tag)) k fun v j =>
      v = .done ∧ k.tree.Enriched "body" tag.attributes j.tree := by
  show Covered ((BodyStart.ofName tag.name).apply tag) k _
  rw [hn, show BodyStart.ofName "body" = .body by decide]
  refine Ends.bind (show Covered (repeatedBody tag) k _ from repeatedBody_covered h) ?_
  rintro _ j ⟨id, hid, hj⟩
  exact Ends.value ⟨rfl, hj ▸ hone.enriched hid tag.attributes⟩

/-- behind the body the tag goes on to the body, where no element of the document has changed yet -/
theorem backToBody_covered (h : k.In m) (hm : m.isBody = true) :
    Covered (backToBody token) k fun v j =>
      v = .reprocess token ∧ j.tree = k.tree ∧ j.In .inBody := by
  refine .parseErrorThen _ ((Does.switchTo .inBody k).andThen (.value ⟨rfl, rfl, ?_⟩))
  have hmove : Move true token k { k with mode := .inBody } := .goto (h.isBody hm) rfl
  exact ⟨hmove.sound h.sound, rfl, h.active⟩

/-- from the body on a `body` tag enriches the body, or goes on to the mode that does so -/
theorem dispatch_bodyTag (h : k.In m) (hone : k.tree.Single "body") (hm : m.isBody = true)
    (hn : tag.name = "body") :
    Covered (dispatch (.startTag tag)) k fun v j =>
      v = .done ∧ k.tree.Enriched "body" tag.attributes j.tree ∨
        m ≠ .inBody ∧ v = .reprocess (.startTag tag) ∧ j.tree = k.tree ∧ j.In .inBody := by
  refine Ends.bind (show Covered _ k _ from foreignStage_body h hn) ?_
  rintro _ i ⟨rfl, htree, hi⟩
  rw [← htree] at hone ⊢
  have hback : m ≠ .inBody → Covered (backToBody (.startTag tag)) i fun v j =>
      v = .done ∧ i.tree.Enriched "body" tag.attributes j.tree ∨
        m ≠ .inBody ∧ v = .reprocess (.startTag tag) ∧ j.tree = i.tree ∧ j.In .inBody :=
    fun hne => Ends.mono (backToBody_covered hi hm) (fun _ _ hj => Or.inr ⟨hne, hj⟩)
      fun _ _ he => he
  refine Ends.ofMode hi.mode ?_
  cases m with
  | inBody => exact Ends.mono (bodyRules_body hi hone hn) (fun _ _ => Or.inl) fun _ _ he => he
  | afterBody | afterAfterBody =>
    show Covered (if tag.name = "html" then _ else _) i _
    rw [if_neg (by rw [hn]; decide)]
    exact hback Mode.noConfusion
  | _ => cases hm

/-- **A further `body` tag enriches the body**, in foreign content and behind the body, too. -/
theorem rounds_body (h : k.In m) (hone : k.tree.Single "body") (hm : m.isBody = true)
    (hn : tag.name = "body") :
    Covered (processWithin maxRounds (.startTag tag)) k fun _ j =>
      k.tree.Enriched "body" tag.attributes j.tree := by
  refine Ends.bind (show Covered _ k _ from dispatch_bodyTag h hone hm hn) ?_
  rintro _ i (⟨rfl, hi⟩ | ⟨_, rfl, htree, hi⟩)
  · exact Ends.value hi
  · rw [← htree] at hone ⊢
    refine Ends.bind (show Covered _ i _ from dispatch_bodyTag hi hone rfl hn) ?_
    rintro _ j (⟨rfl, hj⟩ | ⟨hne, _⟩)
    · exact Ends.value hj
    · exact absurd rfl hne

/-! ## tokens -/

/-- the attributes of a start tag of this name -/
def Token.attributesFor (name : String) : Token → List TagAttribute
  | .startTag tag => if tag.name = name then tag.attributes else []
  | _ => []

theorem Token.attributesFor_eq_nil (h : ∀ tag, token = .startTag tag → tag.name ≠ name) :
    token.attributesFor name = [] := by
  cases token with
  | startTag tag => exact if_neg (h tag rfl)
  | _ => rfl

namespace Constructor
variable {c : Constructor}

/-- the attributes that a token has for the `html` elements or the `body` elements that are there:
none in texts, and for `html` none in foreign content -/
def gives (c : Constructor) (token : Token) (name : String) : List TagAttribute :=
  if c.mode ≠ .text ∧ (name = "html" → c.foreignNamespace? token = none) then
    token.attributesFor name
  else []

theorem skips_startTag (c : Constructor) (tag : StartTag) : c.skips (.startTag tag) = false :=
  Bool.and_false _

/-- a start tag in a text is refused before anything is done -/
theorem process_startTag_of_text (h : c.core.Sound) (hs : c.stopped = false) (hm : c.mode = .text) :
    (c.process (.startTag tag)).2.tree = c.tree := by
  have hin : c.core.In .text := ⟨h, hm, hs⟩
  have hrounds : Ends (processWithin maxRounds (.startTag tag)) c.core
      (fun _ j => j.tree = c.tree) fun _ j => j.tree = c.tree := by
    refine Ends.bind (P := fun _ _ => False) (dispatch_of_html hin (hin.not_foreign rfl) ?_)
      fun _ _ hj => hj.elim
    exact fun d hd => show d.core.tree = c.tree by rw [hd]; rfl
  have hrun := Ends.process (Ends.processToken hrounds fun _ _ hj => hj) (c.skips_startTag tag)
  cases hr : (c.process (.startTag tag)).1 <;> rw [hr] at hrun <;> exact hrun

/-- **Every token gives the `html` and the `body` element the attributes that it has for them**, and
nothing else. -/
theorem process_enriched (h : c.core.Sound) (hf : c.core.Framed) (hs : c.stopped = false)
    (hl : c.options.strict = false) (hn : name = "html" ∨ name = "body") (token : Token) :
    c.tree.Enriched name (c.gives token name) (c.process token).2.tree := by
  intro id e he hname
  have hid : c.core.tree.isHtml name id = true := Tree.elementSatisfies_iff.mpr ⟨e, he, hname⟩
  by_cases htag : ∃ tag, token = .startTag tag ∧ tag.name = name
  · obtain ⟨tag, rfl, rfl⟩ := htag
    have hattributes : (Token.startTag tag).attributesFor tag.name = tag.attributes := if_pos rfl
    unfold gives
    rw [hattributes]
    by_cases hm : c.mode = .text
    · rw [if_neg fun hgives => hgives.1 hm, process_startTag_of_text h hs hm]
      exact he
    · have hin := in_mode h hs
      rcases hn with hn | hn
      · rw [hn] at hid hname ⊢
        have hrounds : Covered (processWithin maxRounds (.startTag tag)) c.core fun _ j =>
            c.tree.Enriched "html"
              (if c.core.isForeign (.startTag tag) then [] else tag.attributes) j.tree := by
          refine Ends.bind (show Covered _ c.core _ from dispatch_htmlTag hin hf hm hn hid) ?_
          rintro _ j ⟨rfl, hj⟩
          exact Ends.value hj
        have hprocess := process_covered_ok h hs hl (c.skips_startTag tag) hrounds
        rw [← c.foreignNamespace?_isSome] at hprocess
        refine (hprocess.2 id e he hname).trans ?_
        cases c.foreignNamespace? (.startTag tag) <;> simp [hm]
      · rw [hn] at hid hname ⊢
        rw [if_pos ⟨hm, fun he => absurd he (by decide)⟩]
        have hrounds := rounds_body hin hf.single_body (hf.isBody_of_body hin hm hid) hn
        exact (process_covered_ok h hs hl (c.skips_startTag tag) hrounds).2 id e he hname
  · have hother : ∀ tag, token = .startTag tag → tag.name ≠ name := fun tag ht hname =>
      htag ⟨tag, ht, hname⟩
    have hnone : c.gives token name = [] := by
      unfold gives
      rw [Token.attributesFor_eq_nil hother, ite_self]
    rw [hnone]
    refine (process_leads (in_mode h hs) token).1.element_old he fun tag ht => ?_
    obtain ⟨hns, hlocal⟩ := Element.isHtml_iff.mp hname
    rw [← Bool.not_eq_true]
    exact fun hhtml => hother tag ht ((Element.isHtml_iff.mp hhtml).2.symm.trans hlocal)

end Constructor

end HtmlTree
