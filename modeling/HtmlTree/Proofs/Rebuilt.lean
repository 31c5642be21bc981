import HtmlTree.Proofs.Site

/-!
# Content is rebuilt

The tokens of a plain forest, in the body of a document, build just that forest.  A node of it comes
with its first token, an element is the current node until its end tag, and what is inside it is built
by the same argument.  Meanwhile no other node changes.

* `Built`             tokens have led to a site where the forest is shown;
* `Built.append`      one forest after another;
* `Built.comment`, `Built.text`, `Built.void`, `Built.element`   forests of one tree;
* `Written.built`     a written forest is built, by induction on how it is written;
* `run_written`       **a document with a plain forest in its body**.
-/

namespace HtmlTree

variable {t u : Tree} {s s₁ s' : Site} {place id x : NodeId} {outside ids new : List NodeId}
  {tokens more inner : List Token} {F G children : Forest} {name : String}
  {attributes : Attributes} {given : List TagAttribute}

/-- the tokens have led to a site where the new children of the current node are the forest -/
structure Built (s : Site) (place : NodeId) (outside : List NodeId) (tokens : List Token)
    (F : Forest) (s' : Site) (ids : List NodeId) : Prop where
  feeds : Feeds s tokens s'
  place_at : s'.At place outside
  gains : s.tree.Gains s'.tree place ids
  shown : s'.tree.Shows place ids F

/-- the element of a tag has the attributes that the tag was written with -/
theorem Tree.get?_attach_written (t : Tree) (place : NodeId) (name : String)
    (hperm : given.Perm attributes.written) :
    (t.attach place (.element (.ofTag name given .html))).get? ⟨t.size⟩ =
      some ⟨.element ⟨name, .html, attributes⟩, some place, []⟩ := by
  rw [get?_attach_new, Element.ofTag, Attributes.union_written hperm]

namespace Built

theorem nil (hs : s.At place outside) : Built s place outside [] .nil s [] :=
  ⟨.nil s, hs, .refl _ _, .nil _⟩

theorem append (h : Built s place outside tokens F s₁ ids)
    (h' : Built s₁ place outside more G s' new) :
    Built s place outside (tokens ++ more) (F.append G) s' (ids ++ new) :=
  ⟨h.feeds.append h'.feeds, h'.place_at, h.gains.trans h'.gains,
    (h.shown.gains h.place_at.grown h'.gains (Nat.le_refl _)).append h'.shown⟩

/-- a new text begins behind anything but a text -/
theorem lastText? (h : Built s place outside tokens F s' [x]) (hs : s.At place outside)
    (hF : F.startsWithText = false) : s'.tree.lastText? place = none := by
  have hkind : s'.tree.isKind .text x = false := by
    have hshown := h.shown
    cases hshown with
    | text => cases hF
    | comment hx => rw [Tree.isKind_of_get? hx]; rfl
    | element hx => rw [Tree.isKind_of_get? hx]; rfl
  unfold Tree.lastText?
  rw [h.gains.lastChild? hs.lt, Option.filter_some, hkind]
  rfl

/-! ## comments and texts -/

theorem comment (hs : s.At place outside) (data : String) :
    ∃ s', Built s place outside [.comment data] (.comment data .nil) s' [⟨s.tree.size⟩] :=
  ⟨_, .one hs (bodyRules_comment data hs.next) nofun, hs.attach _ _, .attach _ _ _,
    .comment (Tree.get?_attach_new _ _ _) (.nil _)⟩

/-- a text that has begun goes on, character by character -/
theorem characters (hp : place.index < t.size) (more : List Char) :
    ∀ (s : Site) (before : String), '\x00' ∉ more → s.At place outside →
      t.Gains s.tree place [x] → s.tree.get? x = some ⟨.text ⟨before⟩, some place, []⟩ →
      ∃ s' : Site, Feeds s (more.map .character) s' ∧ s'.At place outside ∧
        t.Gains s'.tree place [x] ∧
        s'.tree.get? x = some ⟨.text ⟨before ++ String.ofList more⟩, some place, []⟩ := by
  -- on the characters that are left: the node holds those before, and stays the last child
  induction more with
  | nil =>
    intro s before _ hs hg hx
    refine ⟨s, .nil s, hs, hg, ?_⟩
    rw [hx, String.ofList_nil, String.append_empty]
  | cons ch more ih =>
    intro s before hnul hs hg hx
    have hch : ch ≠ '\x00' := fun e => hnul (e ▸ List.mem_cons_self)
    have hlast : s.next.tree.lastText? place = some x := by
      unfold Tree.lastText?
      rw [show s.next.tree.lastChild? place = some x from hg.lastChild? hp, Option.filter_some,
        show s.next.tree.isKind .text x = _ from Tree.isKind_of_get? hx]
      rfl
    have hone : Feeds s [.character ch] _ := .one hs (bodyRules_character hs.next hch) nofun
    rw [Tree.withCharacter_of_text hlast] at hone
    have hx' : (s.tree.modifyData x (.lengthen ch)).get? x =
        some ⟨.text ⟨before ++ String.singleton ch⟩, some place, []⟩ := by
      unfold Tree.modifyData
      rw [Tree.get?_modify_self, hx]
      rfl
    obtain ⟨s', hfeeds, hs', hg', htext⟩ := ih _ (before ++ String.singleton ch)
      (fun h => hnul (List.mem_cons_of_mem _ h)) (hs.longer x ch _)
      (hg.modifyData (hg.fresh x List.mem_cons_self) _) hx'
    refine ⟨s', hone.append hfeeds, hs', hg', ?_⟩
    rw [htext, String.append_assoc, String.ofList_cons]

theorem text (hs : s.At place outside) (hlast : s.tree.lastText? place = none) {data : String}
    (hne : data ≠ "") (hnul : '\x00' ∉ data.toList) :
    ∃ s', Built s place outside (Token.characters data) (.text data .nil) s' [⟨s.tree.size⟩] := by
  unfold Token.characters
  cases hdata : data.toList with
  | nil => exact absurd (String.toList_eq_nil_iff.mp hdata) hne
  | cons ch more =>
    rw [hdata] at hnul
    have hch : ch ≠ '\x00' := fun e => hnul (e ▸ List.mem_cons_self)
    have hone : Feeds s [.character ch] _ := .one hs (bodyRules_character hs.next hch) nofun
    rw [Tree.withCharacter_of_none (t := s.next.tree) hlast] at hone
    obtain ⟨s', hmore, hs', hg, hx⟩ := characters hs.lt more _ (String.singleton ch)
      (fun h => hnul (List.mem_cons_of_mem _ h)) (hs.attach _ false) (.attach _ _ _)
      (Tree.get?_attach_new _ _ _)
    have hwhole : String.singleton ch ++ String.ofList more = data := by
      rw [← String.ofList_cons, ← hdata, String.ofList_toList]
    rw [hwhole] at hx
    exact ⟨s', hone.append hmore, hs', hg, .text hx (.nil _)⟩

/-! ## elements -/

theorem void (hs : s.At place outside) (selfClosing : Bool) (hn : name ∈ voidNames)
    (hperm : given.Perm attributes.written) :
    ∃ s', Built s place outside [.startTag ⟨name, selfClosing, given⟩]
      (.element name attributes .nil .nil) s' [⟨s.tree.size⟩] :=
  ⟨_, .one hs (bodyRules_void hs.next hn) fun _ => rfl, hs.attach _ _, .attach _ _ _,
    .element (Tree.get?_attach_written _ _ _ hperm) (.nil _) (.nil _)⟩

theorem element (hs : s.At place outside) (hn : HoldsContent name)
    (hperm : given.Perm attributes.written)
    (hinner : ∀ (s₁ : Site) (x : NodeId), s₁.At x (place :: outside) →
      s₁.tree.lastText? x = none →
      ∃ s₂ kids, Built s₁ x (place :: outside) inner children s₂ kids) :
    ∃ s', Built s place outside (.startTag ⟨name, false, given⟩ :: (inner ++ [.endTag name]))
      (.element name attributes children .nil) s' [⟨s.tree.size⟩] := by
  have hopen : Feeds s [.startTag ⟨name, false, given⟩] _ :=
    .one hs (bodyRules_start hs.next hn) nofun
  have hx := Tree.get?_attach_written s.tree place name hperm
  obtain ⟨s₂, kids, h₂⟩ := hinner _ ⟨s.tree.size⟩
    (hs.opened (Element.isHtml_iff.mpr ⟨rfl, rfl⟩) hn.ne_paragraph false) (by
      unfold Tree.lastText? Tree.lastChild?
      rw [Tree.children_of_get? hx]
      rfl)
  have hx₂ := h₂.gains.get?_place hx
  have hname : s₂.tree.isHtml name ⟨s.tree.size⟩ = true := by
    unfold Tree.isHtml Tree.elementSatisfies Tree.element?
    rw [hx₂]
    exact Element.isHtml_iff.mpr ⟨rfl, rfl⟩
  have hclose : Feeds s₂ [.endTag name] _ :=
    .one h₂.place_at (bodyRules_end h₂.place_at.next hname hn) nofun
  exact ⟨_, hopen.append (h₂.feeds.append hclose), h₂.place_at.closed false,
    (Tree.Gains.attach s.tree place _).inside (Nat.le_refl _) h₂.gains,
    .element hx₂ h₂.shown (.nil _)⟩

end Built

/-! ## forests -/

/-- **A plain forest is built from the tokens that it is written as**, if its first text does not go
on a text that is there. -/
theorem Forest.Written.built (hw : F.Written tokens) (hF : F.Plain) (hs : s.At place outside)
    (hlast : F.startsWithText = true → s.tree.lastText? place = none) :
    ∃ s' ids, Built s place outside tokens F s' ids := by
  -- on how it is written; inside an element that is the current node, and around it the old one again
  induction hw generalizing s place outside with
  | nil => exact ⟨s, [], .nil hs⟩
  | comment data _ ih =>
    obtain ⟨s₁, h₁⟩ := Built.comment hs data
    obtain ⟨s', ids, h⟩ := ih hF h₁.place_at fun _ => h₁.lastText? hs rfl
    exact ⟨s', _, h₁.append h⟩
  | text data _ ih =>
    obtain ⟨hne, hnul, hrest, hplain⟩ := hF
    obtain ⟨s₁, h₁⟩ := Built.text hs (hlast rfl) hne hnul
    obtain ⟨s', ids, h⟩ := ih hplain h₁.place_at fun h => absurd (hrest.symm.trans h) nofun
    exact ⟨s', _, h₁.append h⟩
  | void selfClosing hn hperm _ ih =>
    obtain ⟨s₁, h₁⟩ := Built.void hs selfClosing hn hperm
    obtain ⟨s', ids, h⟩ := ih hF.2 h₁.place_at fun _ => h₁.lastText? hs rfl
    exact ⟨s', _, h₁.append h⟩
  | @element name _ _ _ _ inner tokens hn hperm _ _ ihc ihr =>
    obtain ⟨hcontent, hchildren⟩ := hF.1.resolve_left fun h => hn h.1
    obtain ⟨s₁, h₁⟩ := Built.element hs hcontent hperm fun _ _ hx hnone =>
      ihc hchildren hx fun _ => hnone
    obtain ⟨s', ids, h⟩ := ihr hF.2 h₁.place_at fun _ => h₁.lastText? hs rfl
    have hall := h₁.append h
    rw [List.cons_append, List.append_assoc, List.singleton_append] at hall
    exact ⟨s', _, hall⟩

/-! ## the body of a document -/

namespace Constructor

/-- a new document whose body has just been opened -/
def inBody : Constructor :=
  ((Constructor.new .default).next (.doctypeNamed "html")).next (.startTagNamed "body")

theorem run_inBody (rest : List Token) :
    (Constructor.new .default).run (.doctypeNamed "html" :: .startTagNamed "body" :: rest) =
      inBody.run rest := by
  rw [run_cons_ok rfl rfl, run_cons_ok rfl rfl]
  rfl

end Constructor

/-- the `html` element of a new document is node `2` and its body node `4` -/
def Site.body : Site := ⟨Constructor.inBody.tree, [⟨4⟩, ⟨2⟩], false, false⟩

theorem Constructor.inBody_building : inBody.Building Site.body :=
  ⟨rfl, rfl, rfl, rfl, rfl, rfl, rfl, rfl, rfl⟩

theorem Site.body_at : Site.body.At ⟨4⟩ [⟨2⟩] where
  grown := by
    have hsound := Constructor.after_sound .default
      [.run [.doctypeNamed "html", .startTagNamed "body"]]
    rw [Constructor.after_cons, Constructor.call, Constructor.run_inBody] at hsound
    exact hsound.bears.grown
  active := rfl
  entries := rfl
  plain := fun id hid => by
    rcases List.mem_cons.mp hid with rfl | hid
    · exact ⟨"body", by decide +kernel, by decide⟩
    · rw [List.mem_singleton.mp hid]
      exact ⟨"html", by decide +kernel, by decide⟩

/-- the document element is `html` and has a head and this body -/
def Tree.HasBody (t : Tree) (body : NodeId) : Prop :=
  ∃ html head, t.documentElement? = some html ∧ t.children html = [head, body] ∧
    t.isHtml "html" html = true ∧ t.isHtml "head" head = true ∧ t.isHtml "body" body = true

/-- the frame of a new document stays while its body gains children -/
theorem Tree.Gains.body (h : Site.body.tree.Gains t ⟨4⟩ ids) :
    t.HasBody ⟨4⟩ ∧ t.children ⟨4⟩ = ids := by
  have hold : ∀ i < 4, t.get? ⟨i⟩ = Site.body.tree.get? ⟨i⟩ := fun i hi =>
    h.get?_of_ne (Nat.lt_trans hi (by decide +kernel)) fun e =>
      Nat.ne_of_lt hi (congrArg NodeId.index e)
  have hroot : t.children .root = [⟨1⟩, ⟨2⟩] := by
    unfold children
    rw [show t.get? .root = _ from hold 0 (by decide)]
    rfl
  have hchildren : t.children ⟨2⟩ = [⟨3⟩, ⟨4⟩] := by
    unfold children
    rw [hold 2 (by decide)]
    rfl
  have hdoctype : t.isKind .element ⟨1⟩ = false := by
    unfold isKind kind?
    rw [hold 1 (by decide)]
    rfl
  have hhtml : t.isHtml "html" ⟨2⟩ = true := h.within.isHtml (by decide +kernel)
  refine ⟨⟨⟨2⟩, ⟨3⟩, ?_, hchildren, hhtml, h.within.isHtml (by decide +kernel),
    h.within.isHtml (by decide +kernel)⟩, ?_⟩
  · unfold documentElement?
    rw [hroot, List.find?_cons_of_neg (by rw [hdoctype]; exact nofun),
      List.find?_cons_of_pos (isKind_of_isHtml hhtml)]
  · have hbody : Site.body.tree.get? ⟨4⟩ =
        some ⟨.element (.ofTag "body" [] .html), some ⟨2⟩, []⟩ := rfl
    rw [children_of_get? (h.get?_place hbody)]
    rfl

/-- **Content is rebuilt exactly.**  A document whose body is written as the tokens of a plain forest
is constructed without an error, takes all tokens, and its body has just that forest as its
children. -/
theorem run_written (F : Forest) (tokens : List Token) (hF : F.Plain) (hw : F.Written tokens) :
    let r := (Constructor.new .default).run
      (.doctypeNamed "html" :: .startTagNamed "body" :: (tokens ++ [.endOfFile]))
    r.outcome = .ok () ∧ r.remaining = [] ∧ r.constructor.errors = #[] ∧
      ∃ body, r.constructor.tree.HasBody body ∧
        r.constructor.tree.Shows body (r.constructor.tree.children body) F := by
  obtain ⟨s', ids, h⟩ := hw.built hF Site.body_at fun _ => by decide +kernel
  have hleft : ∀ id ∈ s'.next.entries, s'.next.tree.isHtmlOneOf leftOpenNames id = true := by
    have hbody : s'.tree.isHtml "body" ⟨4⟩ = true := h.gains.within.isHtml (by decide +kernel)
    have hhtml : s'.tree.isHtml "html" ⟨2⟩ = true := h.gains.within.isHtml (by decide +kernel)
    intro id hid
    rw [h.place_at.next.entries] at hid
    rcases List.mem_cons.mp hid with rfl | hid
    · exact Tree.isHtmlOneOf_of_isHtml hbody (by decide)
    · rw [List.mem_singleton.mp hid]
      exact Tree.isHtmlOneOf_of_isHtml hhtml (by decide)
  have hend : Feeds s' [.endOfFile] _ := .one h.place_at (bodyRules_endOfFile hleft) nofun
  obtain ⟨c, hc, hrun⟩ := (h.feeds.append hend) .inBody Constructor.inBody_building
  rw [Constructor.run_inBody]
  have hall := hrun []
  rw [List.append_nil] at hall
  rw [hall]
  obtain ⟨hbody, hids⟩ := h.gains.body
  refine ⟨rfl, rfl, hc.errors, ⟨4⟩, ?_⟩
  show c.tree.HasBody _ ∧ c.tree.Shows _ (c.tree.children _) F
  rw [hc.tree]
  refine ⟨hbody, ?_⟩
  show s'.tree.Shows ⟨4⟩ (s'.tree.children ⟨4⟩) F
  rw [hids]
  exact h.shown

/-- a division with its attributes out of order, in it text, a line break and bold text in a
`noscript`; behind it an element of a name that there is no rule for, and a comment -/
theorem run_written_division :
    let F := Forest.element "div" ((Attributes.empty.insert "id" "i").insert "class" "c")
      (.text "ab" (.element "br" .empty .nil
        (.element "noscript" .empty (.element "b" .empty (.text "c" .nil) .nil) .nil)))
      (.element "x-y" .empty .nil (.comment "d" .nil))
    let tokens : List Token :=
      [ .startTag ⟨"div", false, [⟨"id", "i"⟩, ⟨"class", "c"⟩]⟩, .character 'a', .character 'b',
        .startTag ⟨"br", true, []⟩, .startTagNamed "noscript", .startTagNamed "b", .character 'c',
        .endTag "b", .endTag "noscript", .endTag "div", .startTagNamed "x-y", .endTag "x-y",
        .comment "d" ]
    F.Plain ∧ F.Written tokens ∧
      let r := (Constructor.new .default).run
        (.doctypeNamed "html" :: .startTagNamed "body" :: (tokens ++ [.endOfFile]))
      r.outcome = .ok () ∧ r.remaining = [] ∧ r.constructor.errors = #[] ∧
        ∃ body, r.constructor.tree.HasBody body ∧
          r.constructor.tree.Shows body (r.constructor.tree.children body) F := by
  intro F tokens
  have hF : F.Plain := by decide +kernel
  have hw : F.Written tokens :=
    .element (by decide) (by decide +kernel) (.text "ab" (.void true (by decide) (.refl _)
      (.element (by decide) (.refl _) (.element (by decide) (.refl _) (.text "c" .nil) .nil) .nil)))
      (.element (by decide) (.refl _) .nil (.comment "d" .nil))
  exact ⟨hF, hw, run_written F tokens hF hw⟩

end HtmlTree
