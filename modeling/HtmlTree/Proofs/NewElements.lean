import HtmlTree.Proofs.Composed

/-!
# New elements

The rules for a start tag insert one element or none.  First they may close others; behind the
insertion nothing is closed any more but the new element itself, and only together with that is the
tag's self-closing flag put to use.  So the flag tells whether the new element is still open.

* `Constructor.Keeps`, `Idle`        no new node, and the flag as it was; elements may be closed;
* `Constructor.Pushed`               a new element on top of the stack;
* `Constructor.Inserted`, `Inserts`  a new element, which is open unless the flag was put to use;
* `Disposes`                         either this, or nothing new and nothing closed.

There is one lemma for each rule of the head and of the body that inserts an element.
-/

namespace HtmlTree

variable {α β : Type} {x : Step α} {f : α → Step β} {a : α} {closes : Bool} {c d e : Constructor}
  {tag : StartTag}

/-! ## what is left alone -/

/-- there is no new node, and the self-closing flag is as it was; what is open was open before, and
where the run does not close elements the stack is the same -/
structure Constructor.Keeps (closes : Bool) (c d : Constructor) : Prop where
  within : c.tree.Within d.tree
  size : d.tree.size = c.tree.size
  used : d.selfClosingUsed = c.selfClosingUsed
  entries : d.openElements.entries ⊆ c.openElements.entries
  still : closes = false → d.openElements = c.openElements

namespace Constructor.Keeps

/-- the document, the stack and the flag are the same -/
theorem same (ht : d.tree = c.tree) (ho : d.openElements = c.openElements)
    (hu : d.selfClosingUsed = c.selfClosingUsed) : c.Keeps closes d where
  within := by rw [ht]; exact .refl _
  size := by rw [ht]
  used := hu
  entries := by rw [ho]; exact fun _ h => h
  still := fun _ => ho

/-- elements are closed -/
theorem closing (ht : d.tree = c.tree) (hs : d.openElements.entries.Sublist c.openElements.entries)
    (hu : d.selfClosingUsed = c.selfClosingUsed) : c.Keeps true d where
  within := by rw [ht]; exact .refl _
  size := by rw [ht]
  used := hu
  entries := hs.subset
  still := fun h => Bool.noConfusion h

theorem refl (c : Constructor) : c.Keeps closes c := same rfl rfl rfl

theorem trans (h : c.Keeps closes d) (h' : d.Keeps closes e) : c.Keeps closes e where
  within := h.within.trans h'.within
  size := h'.size.trans h.size
  used := h'.used.trans h.used
  entries := fun _ hid => h.entries (h'.entries hid)
  still := fun hc => (h'.still hc).trans (h.still hc)

end Constructor.Keeps

/-- the step makes no node and leaves the self-closing flag alone -/
def Idle (closes : Bool) (x : Step α) : Prop := ∀ c : Constructor, c.Keeps closes (x.run c).2

namespace Idle

theorem value (a : α) : Idle closes (pure a : Step α) := fun c => .refl c

theorem bind (hx : Idle closes x) (hf : ∀ a, Idle closes (f a)) : Idle closes (x >>= f) :=
  Step.bind_rel .trans hx hf

theorem ask {f : Constructor → Step α} (h : ∀ c, Idle closes (f c)) : Idle closes (get >>= f) :=
  fun c => h c c

theorem ite {p : Prop} [Decidable p] {y : Step α} (hx : Idle closes x) (hy : Idle closes y) :
    Idle closes (if p then x else y) := by
  split
  · exact hx
  · exact hy

theorem change {g : Constructor → Constructor} (h : ∀ c : Constructor, c.Keeps closes (g c)) :
    Idle closes (modify g : Step Unit) := h

/-- a change of neither the document nor the stack -/
theorem quiet {g : Constructor → Constructor} (ht : ∀ c, (g c).tree = c.tree)
    (ho : ∀ c, (g c).openElements = c.openElements)
    (hu : ∀ c, (g c).selfClosingUsed = c.selfClosingUsed) :
    Idle closes (modify g : Step Unit) := fun c => .same (ht c) (ho c) (hu c)

theorem parseError (kind : ParseErrorKind) : Idle closes (parseError kind) := fun c => by
  rw [parseError_run]
  exact .same rfl rfl rfl

theorem unsupported (t : Token) : Idle closes (unsupported t : Step α) :=
  fun _ => .same rfl rfl rfl

theorem framesetNotOk : Idle closes framesetNotOk :=
  .quiet (fun _ => rfl) (fun _ => rfl) fun _ => rfl

theorem switchTo (mode : Mode) : Idle closes (switchTo mode) :=
  .quiet (fun _ => rfl) (fun _ => rfl) fun _ => rfl

theorem requestState (state : TokenizerState) : Idle closes (requestState state) :=
  .quiet (fun _ => rfl) (fun _ => rfl) fun _ => rfl

theorem enterText (state : TokenizerState) : Idle closes (enterText state) :=
  .quiet (fun _ => rfl) (fun _ => rfl) fun _ => rfl

theorem skipNextLineFeed : Idle closes skipNextLineFeed :=
  .quiet (fun _ => rfl) (fun _ => rfl) fun _ => rfl

theorem expectCurrent (names : List String) (kind : ParseErrorKind) :
    Idle closes (expectCurrent names kind) := .ask fun _ => .ite (.parseError _) (.value _)

/-! ### further tags of elements that are there -/

theorem mergeAttributes (target : NodeId) (given : List TagAttribute) :
    Idle closes (mergeAttributes target given) := .change fun _ => {
  within := Tree.within_modifyData _ _ (NodeData.kind_mapElement _)
    (NodeData.label?_mapElement fun _ => ⟨rfl, rfl⟩)
  size := Tree.size_modify _ _ _
  used := rfl
  entries := fun _ h => h
  still := fun _ => rfl }

theorem repeatedHtml (tag : StartTag) : Idle closes (repeatedHtml tag) := by
  refine (parseError _).bind fun _ => .ask fun c => .ite (.value _) ?_
  split
  · exact mergeAttributes _ _
  · exact .value _

theorem repeatedBody (tag : StartTag) : Idle closes (repeatedBody tag) := by
  refine (parseError _).bind fun _ => .ask fun c => ?_
  split
  · exact .ite (framesetNotOk.bind fun _ => mergeAttributes _ _) (.value _)
  · exact .value _

theorem startFrameset (tag : StartTag) : Idle closes (startFrameset tag) :=
  (parseError _).bind fun _ => .ask fun _ => .ite (.unsupported _) (.value _)

/-! ### closing elements -/

theorem popElement : Idle true popElement :=
  .change fun _ => .closing rfl (List.tail_sublist _) rfl

theorem generateImpliedEndTags (except : Option String) :
    Idle true (generateImpliedEndTags except) :=
  .change fun _ => .closing rfl (List.dropWhile_sublist _) rfl

theorem popUntilTag (name : String) : Idle true (popUntilTag name) :=
  .change fun _ => .closing rfl ((List.tail_sublist _).trans (List.dropWhile_sublist _)) rfl

theorem keepFormatting (inside : List NodeId) (t : Token) :
    Idle closes (keepFormatting inside t) := .ask fun _ => .ite (.unsupported _) (.value _)

theorem keepFormattingIn (names : List String) (t : Token) :
    Idle closes (keepFormattingIn names t) := by
  refine .ask fun c => ?_
  split
  · exact keepFormatting _ _
  · exact .value _

theorem closeOpenParagraph (t : Token) : Idle true (closeOpenParagraph t) := by
  refine .ask fun c => .ite ((keepFormattingIn _ _).bind fun _ => ?_) (.value _)
  exact (generateImpliedEndTags _).bind fun _ => (expectCurrent _ _).bind fun _ => popUntilTag _

theorem closeListItem (closes : List String) (t : Token) : Idle true (closeListItem closes t) := by
  refine .ask fun c => ?_
  dsimp only
  split
  · exact .value _
  · split
    · exact .value _
    · exact (keepFormatting _ _).bind fun _ => (generateImpliedEndTags _).bind fun _ =>
        (expectCurrent _ _).bind fun _ => popUntilTag _

theorem breakOut (kind : ParseErrorKind) : Idle true (breakOut kind) := by
  refine (parseError _).bind fun _ => .bind (.change fun c => ?_) fun _ => .value _
  exact .closing rfl (List.dropWhile_sublist _) rfl

end Idle

/-! ## what is new -/

/-- an element was put into the document and on top of the stack -/
structure Constructor.Pushed (c : Constructor) (e : Element) (d : Constructor) : Prop where
  size : d.tree.size = c.tree.size + 1
  label : d.tree.label? ⟨c.tree.size⟩ = some (e.ns, e.localName)
  entries : d.openElements.entries = ⟨c.tree.size⟩ :: c.openElements.entries
  used : d.selfClosingUsed = c.selfClosingUsed

/-- there is one new node, an element, and it is open unless the self-closing flag was put to use -/
structure Constructor.Inserted (c d : Constructor) : Prop where
  size : d.tree.size = c.tree.size + 1
  element : (d.tree.label? ⟨c.tree.size⟩).isSome = true
  used : d.selfClosingUsed = true ↔ ⟨c.tree.size⟩ ∉ d.openElements.entries

/-- the flag of a token has not been put to use, and what is open is in the document -/
structure Constructor.Fresh (c : Constructor) : Prop where
  unused : c.selfClosingUsed = false
  known : ∀ id ∈ c.openElements.entries, id.index < c.tree.size

namespace Constructor

theorem Fresh.new_notMem (h : c.Fresh) : ⟨c.tree.size⟩ ∉ c.openElements.entries := fun hmem =>
  Nat.lt_irrefl _ (h.known _ hmem)

theorem Fresh.kept (h : c.Fresh) (hk : c.Keeps closes d) : d.Fresh where
  unused := hk.used.trans h.unused
  known := fun id hid => by
    rw [hk.size]
    exact h.known id (hk.entries hid)

/-- an element that stays open -/
theorem Pushed.inserted {e : Element} (h : c.Pushed e d) (hc : c.Fresh) : c.Inserted d where
  size := h.size
  element := by rw [h.label]; rfl
  used := by
    rw [h.used, hc.unused, h.entries]
    exact iff_of_false Bool.noConfusion fun hno => hno List.mem_cons_self

/-- an element that is closed at once -/
theorem Pushed.closed {e : Element} (h : c.Pushed e d) (hc : c.Fresh) :
    c.Inserted { d with openElements := d.openElements.pop, selfClosingUsed := true } where
  size := h.size
  element := by
    show (d.tree.label? _).isSome = true
    rw [h.label]
    rfl
  used := by
    show _ ↔ _ ∉ d.openElements.entries.tail
    rw [h.entries]
    exact iff_of_true rfl hc.new_notMem

/-- an insertion behind closed elements -/
theorem Inserted.after (h : d.Inserted e) (hk : c.Keeps closes d) : c.Inserted e := by
  have hsize := hk.size
  exact ⟨by rw [← hsize]; exact h.size, by rw [← hsize]; exact h.element,
    by rw [← hsize]; exact h.used⟩

/-- what comes behind an insertion -/
theorem Inserted.kept (h : c.Inserted d) (hk : d.Keeps false e) : c.Inserted e where
  size := hk.size.trans h.size
  element := by
    rw [hk.within.label? (by rw [h.size]; exact Nat.lt_succ_self _)]
    exact h.element
  used := by
    rw [hk.used, hk.still rfl]
    exact h.used

end Constructor

/-- where the step succeeds it inserts an element -/
def Inserts (x : Step α) : Prop :=
  ∀ c : Constructor, c.Fresh → ∀ a d, x.run c = (.ok a, d) → c.Inserted d

/-- where the step succeeds it inserts an element, or it closes none and inserts none -/
def Disposes (x : Step α) : Prop :=
  ∀ c : Constructor, c.Fresh → ∀ a d, x.run c = (.ok a, d) → c.Inserted d ∨ c.Keeps false d

namespace Inserts

theorem disposes (h : Inserts x) : Disposes x := fun c hc a d hr => Or.inl (h c hc a d hr)

/-- other elements may be closed before -/
theorem after (hx : Idle true x) (hf : ∀ a, Inserts (f a)) : Inserts (x >>= f) :=
  fun c hc b e hr => by
    obtain ⟨a, d, hd, he⟩ := Step.exists_of_run_bind hr
    have hk := hx c
    rw [hd] at hk
    exact (hf a d (hc.kept hk) b e he).after hk

/-- and nothing may be closed behind -/
theorem andThen (hx : Inserts x) (hf : ∀ a, Idle false (f a)) : Inserts (x >>= f) :=
  fun c hc b e hr => by
    obtain ⟨a, d, hd, he⟩ := Step.exists_of_run_bind hr
    have hk := hf a d
    rw [he] at hk
    exact (hx c hc a d hd).kept hk

theorem ask {f : Constructor → Step α} (h : ∀ c, Inserts (f c)) : Inserts (get >>= f) :=
  fun c => h c c

theorem ite {p : Prop} [Decidable p] {y : Step α} (hx : Inserts x) (hy : Inserts y) :
    Inserts (if p then x else y) := by
  split
  · exact hx
  · exact hy

theorem unsupported (t : Token) : Inserts (unsupported t : Step α) := fun _ _ _ _ hr => nomatch hr

end Inserts

namespace Disposes

theorem idle (h : Idle false x) : Disposes x := fun c _ a d hr => Or.inr (by
  have hk := h c
  rw [hr] at hk
  exact hk)

theorem ask {f : Constructor → Step α} (h : ∀ c, Disposes (f c)) : Disposes (get >>= f) :=
  fun c => h c c

theorem ite {p : Prop} [Decidable p] {y : Step α} (hx : Disposes x) (hy : Disposes y) :
    Disposes (if p then x else y) := by
  split
  · exact hx
  · exact hy

end Disposes

/-! ## insertions -/

theorem appendNew_pushed {place id : NodeId} {e : Element}
    (hr : (appendNew place (.element e)).run c = (.ok id, d)) :
    c.Pushed e { d with openElements := d.openElements.push id } := by
  rw [appendNew_run] at hr
  obtain ⟨ho, rfl⟩ := Prod.mk.inj hr
  have hid : id = ⟨c.tree.size⟩ := by
    split at ho
    · exact (Except.ok.inj ho).symm
    · cases ho
  subst hid
  refine ⟨c.tree.size_appendNew place rfl, ?_, rfl, rfl⟩
  exact (c.tree.label?_appendNew place ⟨c.tree.size⟩ rfl).trans (if_pos rfl)

theorem currentNode_same {id : NodeId} (hr : currentNode.run c = (.ok id, d)) : d = c := by
  unfold currentNode at hr
  rw [Step.run_get_bind] at hr
  split at hr
  · exact (Prod.mk.inj hr).2.symm
  · cases (Prod.mk.inj hr).1

theorem insertElement_pushed {id : NodeId} {e : Element}
    (hr : (insertElement e).run c = (.ok id, d)) : c.Pushed e d := by
  obtain ⟨place, c', hplace, hrest⟩ := Step.exists_of_run_bind hr
  obtain rfl := currentNode_same hplace
  obtain ⟨new, d', hnew, hpush⟩ := Step.exists_of_run_bind hrest
  obtain rfl : { d' with openElements := d'.openElements.push new } = d := (Prod.mk.inj hpush).2
  exact appendNew_pushed hnew

namespace Inserts

theorem element (e : Element) : Inserts (insertElement e) := fun _ hc _ _ hr =>
  (insertElement_pushed hr).inserted hc

/-- an element that is closed at once, and its flag put to use -/
theorem closed (e : Element) : Inserts (do
    let _ ← insertElement e
    popElement
    useSelfClosing) := fun c hc a d hr => by
  obtain ⟨id, d', hd, hr⟩ := Step.exists_of_run_bind hr
  obtain ⟨_, rfl⟩ := Prod.mk.inj hr
  exact (insertElement_pushed hd).closed hc

theorem insertPlain (tag : StartTag) : Inserts (insertPlain tag) :=
  (element _).andThen fun _ => .value _

theorem insertVoid (tag : StartTag) : Inserts (insertVoid tag) := closed _

theorem insertTextOnly (tag : StartTag) (state : TokenizerState) :
    Inserts (insertTextOnly tag state) := (element _).andThen fun _ => .enterText state

theorem insertForeign (tag : StartTag) (ns : Namespace) : Inserts (insertForeign tag ns) := by
  unfold HtmlTree.insertForeign
  cases tag.selfClosing with
  | true => exact closed _
  | false => exact (element _).andThen fun _ => .value _

/-! ## rules of the head -/

theorem headStart (rule : HeadStart) (tag : StartTag) : Inserts (rule.apply tag) := by
  cases rule with
  | void => exact insertVoid _
  | title | rawText | script => exact insertTextOnly _ _
  | noscript => exact (element _).andThen fun _ => .switchTo _
  | template => exact .unsupported _

theorem openBody (tag : StartTag) : Inserts (openBody tag) :=
  (element _).andThen fun _ => .bind .framesetNotOk fun _ => .switchTo _

end Inserts

theorem Disposes.headContent (tag : StartTag) : Disposes (headContent tag) := by
  refine .ask fun c => ?_
  split
  · exact (Inserts.headStart _ _).disposes
  · exact .idle (.value _)

/-! ## rules of the body -/

namespace Inserts

theorem startBlock (tag : StartTag) : Inserts (startBlock tag) :=
  .after (.closeOpenParagraph _) fun _ => insertPlain tag

theorem startHeading (tag : StartTag) : Inserts (startHeading tag) := by
  refine .after (.closeOpenParagraph _) fun _ => .ask fun c => .ite ?_ (insertPlain _)
  exact .after (.parseError _) fun _ => .after .popElement fun _ => insertPlain _

theorem startPreformatted (tag : StartTag) : Inserts (startPreformatted tag) :=
  (startBlock _).andThen fun _ => .bind .skipNextLineFeed fun _ => .framesetNotOk

theorem startListItem (closes : List String) (tag : StartTag) :
    Inserts (startListItem closes tag) :=
  .after .framesetNotOk fun _ => .after (.closeListItem _ _) fun _ => startBlock _

theorem startPlaintext (tag : StartTag) : Inserts (startPlaintext tag) :=
  (startBlock _).andThen fun _ => .requestState _

theorem startMarker (tag : StartTag) : Inserts (startMarker tag) :=
  (insertPlain _).andThen fun _ => .framesetNotOk

theorem startButton (tag : StartTag) : Inserts (startButton tag) := by
  have hrest : Inserts (do HtmlTree.insertPlain tag; HtmlTree.framesetNotOk) := startMarker tag
  refine .ask fun c => .ite ?_ hrest
  exact .after (.parseError _) fun _ => .after (.keepFormattingIn _ _) fun _ =>
    .after (.generateImpliedEndTags _) fun _ => .after (.popUntilTag _) fun _ => hrest

theorem startAnchor (tag : StartTag) : Inserts (startAnchor tag) :=
  .ask fun _ => .ite (.unsupported _) (insertPlain _)

theorem startNobr (tag : StartTag) : Inserts (startNobr tag) :=
  .ask fun _ => .ite (.unsupported _) (insertPlain _)

theorem startVoid (tag : StartTag) : Inserts (startVoid tag) :=
  (insertVoid _).andThen fun _ => .framesetNotOk

theorem startInput (tag : StartTag) : Inserts (startInput tag) :=
  (insertVoid _).andThen fun _ => .ite .framesetNotOk (.value _)

theorem startThematicBreak (tag : StartTag) : Inserts (startThematicBreak tag) :=
  .after (.closeOpenParagraph _) fun _ => startVoid _

theorem startTextarea (tag : StartTag) : Inserts (startTextarea tag) :=
  (insertTextOnly _ _).andThen fun _ => .bind .skipNextLineFeed fun _ => .framesetNotOk

theorem startIframe (tag : StartTag) : Inserts (startIframe tag) :=
  .after .framesetNotOk fun _ => insertTextOnly _ _

theorem startXmp (tag : StartTag) : Inserts (startXmp tag) :=
  .after (.closeOpenParagraph _) fun _ => startIframe tag

theorem startNoscript (tag : StartTag) : Inserts (startNoscript tag) :=
  .ask fun _ => .ite (insertTextOnly _ _) (insertPlain _)

theorem startOption (tag : StartTag) : Inserts (startOption tag) :=
  .ask fun _ => .ite (.after .popElement fun _ => insertPlain _) (insertPlain _)

theorem startRuby (spared : Option String) (expected : List String) (tag : StartTag) :
    Inserts (startRuby spared expected tag) := by
  refine .ask fun c => .ite ?_ (insertPlain _)
  exact .after (.generateImpliedEndTags _) fun _ => .after (.expectCurrent _ _) fun _ =>
    insertPlain _

end Inserts

/-- a form in a form is passed over -/
theorem Disposes.startForm (tag : StartTag) : Disposes (startForm tag) := by
  refine .ask fun c => .ite (.idle (.parseError _)) (Inserts.disposes ?_)
  refine .after (.closeOpenParagraph _) fun _ => (Inserts.element _).andThen fun _ => ?_
  exact .ite (.quiet (fun _ => rfl) (fun _ => rfl) fun _ => rfl) (.value _)

end HtmlTree
