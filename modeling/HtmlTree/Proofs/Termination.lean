import HtmlTree.Proofs.ForeignRules

/-!
# Processing comes to an end

A token may be processed anew in another mode, or as another token, and nothing in the rules counts
how often.  Here the rounds are a loop without a limit, and it ends from whatever state: every round
that asks for another one leaves a mode and a token that need fewer.  This rests on no invariant, so
it holds where handles are stale as well.  The walks along the stack end after as many passes as
there are entries at most.

* `Loops`             a loop that nothing limits, and how often it goes on;
* `Constructor.round`  one round as the body of a loop;
* `Core.roundsLeft`   the rounds that a token needs at most, in any state at all;
* `dispatch_lowers`   a round that asks for another one leaves fewer;
* `Constructor.WalksEnd`   the walks along the stack as loops;
* `processing_ends`   **a token takes seven rounds at most**.
-/

namespace HtmlTree

/-! ## loops -/

section
variable {σ ρ : Type} {body : σ → ρ ⊕ σ} {n : Nat} {s : σ} {r : ρ}

/-- the loop goes on so many times from this state and then ends with this answer; its body says
whether it ends or in which state it goes on, and nothing else does -/
inductive Loops (body : σ → ρ ⊕ σ) : Nat → σ → ρ → Prop
  | exit {s : σ} {r : ρ} : body s = .inl r → Loops body 0 s r
  | again {n : Nat} {s s' : σ} {r : ρ} : body s = .inr s' → Loops body n s' r →
      Loops body (n + 1) s r

/-- the loop goes on at most so many times, and ends with this answer -/
def LoopsWithin (body : σ → ρ ⊕ σ) (m : Nat) (s : σ) (r : ρ) : Prop := ∃ n ≤ m, Loops body n s r

/-- a loop ends if there is less to do each time that it goes on -/
theorem Loops.exists_of_measure (μ : σ → Nat) (h : ∀ s s', body s = .inr s' → μ s' < μ s) (s : σ) :
    ∃ n r, n ≤ μ s ∧ Loops body n s r := by
  induction hμ : μ s using Nat.strongRecOn generalizing s with
  | ind m ih =>
    cases hb : body s with
    | inl r => exact ⟨0, r, Nat.zero_le _, .exit hb⟩
    | inr s' =>
      have hlt := h s s' hb
      rw [hμ] at hlt
      obtain ⟨n, r, hn, hloop⟩ := ih (μ s') hlt s' rfl
      exact ⟨n + 1, r, Nat.le_trans (Nat.succ_le_succ hn) hlt, .again hb hloop⟩

namespace LoopsWithin

theorem stop (m : Nat) (hb : body s = .inl r) : LoopsWithin body m s r :=
  ⟨0, Nat.zero_le m, .exit hb⟩

/-- the loop goes on once more than from the next state -/
theorem goOn {s' : σ} {m : Nat} (hb : body s = .inr s') (h : LoopsWithin body m s' r) :
    LoopsWithin body (m + 1) s r := by
  obtain ⟨n, hn, hloop⟩ := h
  exact ⟨n + 1, Nat.succ_le_succ hn, .again hb hloop⟩

end LoopsWithin

end

/-! ## rounds without a limit -/

/-- one round of a token: it ends the processing or asks for another one -/
def Constructor.round (s : Token × Constructor) :
    (Except Failure Unit × Constructor) ⊕ (Token × Constructor) :=
  match (dispatch s.1).run s.2 with
  | (.ok .done, c) => .inl (.ok (), c)
  | (.ok (.reprocess t), c) => .inr (t, c)
  | (.error e, c) => .inl (.error e, c)

/-- a limit that the rounds stay below does not show -/
theorem Loops.processWithin {n limit : Nat} {s : Token × Constructor}
    {r : Except Failure Unit × Constructor} (h : Loops Constructor.round n s r) (hn : n < limit) :
    (processWithin limit s.1).run s.2 = r := by
  induction h generalizing limit with
  | @exit s r hb =>
    obtain ⟨limit, rfl⟩ := Nat.exists_eq_succ_of_ne_zero (Nat.ne_zero_of_lt hn)
    unfold HtmlTree.processWithin
    unfold Constructor.round at hb
    rw [Step.run_bind]
    rcases hd : (dispatch s.1).run s.2 with ⟨_ | v, c⟩ <;> rw [hd] at hb
    · cases hb
      rfl
    · cases v <;> cases hb
      rfl
  | @again n s s' r hb _ ih =>
    obtain ⟨limit, rfl⟩ := Nat.exists_eq_succ_of_ne_zero (Nat.ne_zero_of_lt hn)
    unfold HtmlTree.processWithin
    unfold Constructor.round at hb
    rw [Step.run_bind]
    rcases hd : (dispatch s.1).run s.2 with ⟨_ | v, c⟩ <;> rw [hd] at hb
    · cases hb
    · cases v <;> cases hb
      exact ih (Nat.lt_of_succ_lt_succ hn)

/-! ## what is left to do -/

/-- the rounds that a token needs at most, whatever the state; in a text-only element only the end
of the input goes on, to the mode that is to be returned to -/
def Core.roundsLeft (k : Core) (token : Token) : Nat :=
  if k.mode = .text then
    if token = .endOfFile then
      1 + k.originalMode.elim 0 fun m => if m = .text then 1 else roundsOf m token
    else 1
  else roundsOf k.mode token

variable {k : Core} {token : Token} {tag : StartTag} {m m' : Mode} {α β : Type}

theorem Core.roundsLeft_of_mode (hk : k.mode = m) (hm : m ≠ .text) :
    k.roundsLeft token = roundsOf m token := by
  rw [roundsLeft, hk, if_neg hm]

theorem Core.roundsLeft_pos (k : Core) (token : Token) : 0 < k.roundsLeft token := by
  unfold roundsLeft
  split
  · split <;> omega
  · exact roundsOf_pos _ _

theorem Core.roundsLeft_le (k : Core) (token : Token) : k.roundsLeft token ≤ maxRounds := by
  have hend : ∀ m : Mode, roundsOf m .endOfFile ≤ 6 := by
    intro m
    cases m <;> decide
  unfold roundsLeft
  split
  · split
    · rename_i _ he
      rw [he]
      cases k.originalMode with
      | none => decide
      | some m =>
        rw [Option.elim_some]
        have h := hend m
        unfold maxRounds
        split <;> omega
    · decide
  · exact roundsOf_le_maxRounds _ _

/-! ## rounds that ask for another one -/

/-- if another round is asked for, fewer than `n` are left from there on -/
def Lowers (n : Nat) (x : Step Verdict) (k : Core) : Prop :=
  Anew (fun t k' => k'.roundsLeft t < n) x k

/-- the step leaves this mode, if it does not fail -/
def LeavesIn (m : Mode) (x : Step α) (k : Core) : Prop :=
  Ends x k (fun _ k' => k'.mode = m) fun _ _ => True

theorem LeavesIn.switchTo (m : Mode) (k : Core) : LeavesIn m (switchTo m) k :=
  Ends.mono (Does.switchTo m k) (fun _ _ h => congrArg Core.mode h.2) fun _ _ h => h.elim

/-- the mode is that of the last step -/
theorem LeavesIn.last {x : Step α} {f : α → Step β} (hf : ∀ a j, LeavesIn m (f a) j) :
    LeavesIn m (x >>= f) k := Ends.bind (Ends.any x k) fun a j _ => hf a j

/-- the token goes on in a mode in which it needs fewer rounds -/
theorem Lowers.onTo {n : Nat} {x : Step α} (hx : LeavesIn m x k) (hm : m ≠ .text)
    (hlt : roundsOf m token < n) : Lowers n (x >>= fun _ => pure (.reprocess token)) k :=
  Anew.bind hx fun _ j hj => .again <| by
    rw [Core.roundsLeft_of_mode hj hm]
    exact hlt

/-! ## the rules of every mode -/

theorem missDoctype_lowers (k : Core) : Lowers (roundsOf .initial token) (missDoctype token) k := by
  have hlt : roundsOf .beforeHtml token < roundsOf .initial token :=
    roundsOf_lt (by decide) (by decide) token
  refine .ask fun c _ => .ite (.last fun _ _ => .last fun _ _ => ?_) ?_
  all_goals exact Lowers.onTo (.switchTo _ _) (by decide) hlt

theorem initialRules_lowers (k : Core) :
    Lowers (roundsOf .initial token) (initialRules token) k := by
  unfold initialRules
  split
  · exact .ite .done (missDoctype_lowers k)
  · exact .finished _
  · exact .finished _
  · exact missDoctype_lowers k

theorem implyHtml_lowers (k : Core) : Lowers (roundsOf .beforeHtml token) (implyHtml token) k :=
  Lowers.onTo (.last fun _ _ => .last fun _ _ => .switchTo .beforeHead _) (by decide)
    (roundsOf_lt (by decide) (by decide) token)

theorem beforeHtmlRules_lowers (k : Core) :
    Lowers (roundsOf .beforeHtml token) (beforeHtmlRules token) k := by
  unfold beforeHtmlRules
  split
  · exact .finished _
  · exact .finished _
  · exact .ite .done (implyHtml_lowers k)
  · exact .ite (.finished _) (implyHtml_lowers k)
  · exact .ite (implyHtml_lowers k) (.finished _)
  · exact implyHtml_lowers k

theorem implyHead_lowers (k : Core) : Lowers (roundsOf .beforeHead token) (implyHead token) k :=
  Lowers.onTo (.last fun _ _ => .last fun _ _ => .switchTo .inHead _) (by decide)
    (roundsOf_lt (by decide) (by decide) token)

theorem beforeHeadRules_lowers (k : Core) :
    Lowers (roundsOf .beforeHead token) (beforeHeadRules token) k := by
  unfold beforeHeadRules
  split
  · exact .ite .done (implyHead_lowers k)
  · exact .finished _
  · exact .finished _
  · exact .ite (.finished _) (.ite (.finished _) (implyHead_lowers k))
  · exact .ite (implyHead_lowers k) (.finished _)
  · exact implyHead_lowers k

theorem implyHeadEnd_lowers (k : Core) : Lowers (roundsOf .inHead token) (implyHeadEnd token) k :=
  Lowers.onTo (.last fun _ _ => .switchTo .afterHead _) (by decide)
    (roundsOf_lt (by decide) (by decide) token)

theorem inHeadRules_lowers (k : Core) : Lowers (roundsOf .inHead token) (inHeadRules token) k := by
  unfold inHeadRules
  split
  · exact .ite .done (implyHeadEnd_lowers k)
  · exact .finished _
  · exact .finished _
  · refine .ask fun c _ => ?_
    split
    · exact .finished _
    · exact .ite (.finished _) (.ite (.finished _) (implyHeadEnd_lowers k))
  · exact .ite (.finished _) (.ite (.unsupported _) (.ite (implyHeadEnd_lowers k) (.finished _)))
  · exact implyHeadEnd_lowers k

theorem implyNoscriptEnd_lowers (k : Core) :
    Lowers (roundsOf .inHeadNoscript token) (implyNoscriptEnd token) k :=
  .last fun _ _ => Lowers.onTo (.last fun _ _ => .switchTo .inHead _) (by decide)
    (roundsOf_lt (by decide) (by decide) token)

theorem inHeadNoscriptRules_lowers (k : Core) :
    Lowers (roundsOf .inHeadNoscript token) (inHeadNoscriptRules token) k := by
  unfold inHeadNoscriptRules
  split
  · exact .finished _
  · exact .ite .done (implyNoscriptEnd_lowers k)
  · exact .finished _
  · exact .ite (.finished _) (.ite (.finished _) (.ite (.finished _) (implyNoscriptEnd_lowers k)))
  · exact .ite (.finished _) (.ite (implyNoscriptEnd_lowers k) (.finished _))
  · exact implyNoscriptEnd_lowers k

theorem implyBody_lowers (k : Core) : Lowers (roundsOf .afterHead token) (implyBody token) k :=
  .last fun _ _ => Lowers.onTo (.switchTo .inBody _) (by decide)
    (roundsOf_lt (by decide) (by decide) token)

theorem afterHeadRules_lowers (k : Core) :
    Lowers (roundsOf .afterHead token) (afterHeadRules token) k := by
  unfold afterHeadRules
  split
  · exact .ite (.finished _) (implyBody_lowers k)
  · exact .finished _
  · exact .finished _
  · exact .ite (.finished _) (.ite (.finished _) (.ite (.unsupported _)
      (.ite (.finished _) (.ite (.finished _) (implyBody_lowers k)))))
  · exact .ite (.unsupported _) (.ite (implyBody_lowers k) (.finished _))
  · exact implyBody_lowers k

/-! ### the body -/

/-- an `image` tag goes on in the same mode, but as an `img` tag, which does not -/
theorem startImage_lowers (hk : k.mode = .inBody) (hn : tag.name = "image") :
    Lowers (roundsOf .inBody (.startTag tag)) (BodyStart.image.apply tag) k := by
  refine .parseErrorThen _ (.again ?_)
  have himage : roundsOf .inBody (.startTag tag) = 2 := by
    show 1 + (tag.name == "image").toNat = 2
    rw [hn]
    rfl
  rw [Core.roundsLeft_of_mode hk (by decide), himage]
  exact Nat.one_lt_two

theorem bodyStartTag_lowers (hk : k.mode = .inBody) :
    Lowers (roundsOf .inBody (.startTag tag)) (bodyStartTag tag) k := by
  unfold bodyStartTag
  cases hr : BodyStart.ofName tag.name with
  | unsupported => exact .unsupported _
  | image =>
    have hn := mem_of_rule ["image"] hr (by decide) (by decide)
    exact startImage_lowers hk (List.mem_singleton.mp hn)
  | _ => exact .finished _

/-- the end of the document goes on behind the body, where it is the last round -/
theorem endHtml_lowers (k : Core) : Lowers (roundsOf .inBody (.endTag "html")) endHtml k := by
  refine Anew.bind (closeBody_ends k) fun ended j hj => ?_
  cases ended with
  | false => exact Anew.done
  | true =>
    have hmode : j.mode = .afterBody := by
      rw [hj]
      rfl
    refine Anew.again ?_
    rw [Core.roundsLeft_of_mode hmode (by decide)]
    decide

theorem bodyEndTag_lowers (name : String) (k : Core) :
    Lowers (roundsOf .inBody (.endTag name)) (bodyEndTag name) k := by
  unfold bodyEndTag
  cases hr : BodyEnd.ofName name with
  | template => exact .unsupported _
  | html =>
    have hn := mem_of_rule ["html"] hr (by decide) (by decide)
    rw [List.mem_singleton.mp hn]
    exact endHtml_lowers k
  | _ => exact .finished _

theorem inBodyRules_lowers (hk : k.mode = .inBody) :
    Lowers (roundsOf .inBody token) (inBodyRules token) k := by
  unfold inBodyRules
  split
  · exact .finished _
  · exact .finished _
  · exact .finished _
  · exact bodyStartTag_lowers hk
  · exact bodyEndTag_lowers _ k
  · exact .finished _

/-! ### text and the end -/

/-- the end of the input goes on to the mode that is to be returned to, and leaves none -/
theorem endTextInput_lowers (hk : k.mode = .text) :
    Lowers (k.roundsLeft .endOfFile) endTextInput k := by
  have hleave : Ends leaveText k (fun _ i => i.originalMode = none ∧ k.originalMode = some i.mode)
      fun _ _ => True := by
    refine (Does.popElement k).andThen (Ends.ask fun c hc => ?_)
    split
    · rename_i m hm
      exact Ends.change fun d hd => ⟨rfl, (congrArg Core.originalMode hc).symm.trans hm⟩
    · exact fun _ _ => trivial
  refine .parseErrorThen _ (Anew.bind hleave fun _ i hi => .again ?_)
  have hleft : k.roundsLeft .endOfFile =
      1 + if i.mode = .text then 1 else roundsOf i.mode .endOfFile := by
    unfold Core.roundsLeft
    rw [if_pos hk, if_pos rfl, hi.2]
    rfl
  rw [hleft]
  unfold Core.roundsLeft
  rw [if_pos rfl, hi.1, Option.elim_none, Nat.add_zero]
  omega

theorem textRules_lowers (hk : k.mode = .text) :
    Lowers (k.roundsLeft token) (textRules token) k := by
  cases token with
  | character ch => exact .finished _
  | endOfFile => exact endTextInput_lowers hk
  | endTag name => exact .finished _
  | startTag _ | comment _ | doctype _ => exact .unsupported _

theorem backToBody_lowers (hlt : roundsOf .inBody token < roundsOf m token) :
    Lowers (roundsOf m token) (backToBody token) k :=
  .last fun _ _ => Lowers.onTo (.switchTo .inBody _) (by decide) hlt

theorem afterBodyRules_lowers (k : Core) :
    Lowers (roundsOf .afterBody token) (afterBodyRules token) k := by
  have hback : token ≠ .endTag "html" →
      Lowers (roundsOf .afterBody token) (backToBody token) k := fun hne => by
    refine backToBody_lowers ?_
    have hle := roundsOf_le .inBody token
    rw [show roundsOf .afterBody token = 2 + token.lingers.toNat from if_neg fun he => hne he.2]
    exact Nat.lt_of_le_of_lt hle (Nat.add_lt_add_right (by decide) _)
  unfold afterBodyRules
  split
  · exact .ite (.finished _) (hback Token.noConfusion)
  · exact .finished _
  · exact .finished _
  · exact .ite (.finished _) (hback Token.noConfusion)
  · split
    · exact .finished _
    · rename_i name hne
      exact hback fun he => hne (by cases he; rfl)
  · exact .finished _

theorem afterAfterBodyRules_lowers (k : Core) :
    Lowers (roundsOf .afterAfterBody token) (afterAfterBodyRules token) k := by
  have hback : Lowers (roundsOf .afterAfterBody token) (backToBody token) k :=
    backToBody_lowers (roundsOf_lt (by decide) (by decide) token)
  unfold afterAfterBodyRules
  split
  · exact .ite (.finished _) hback
  · exact .finished _
  · exact .finished _
  · exact .ite (.finished _) hback
  · exact hback
  · exact .finished _

/-! ## one round -/

/-- the rules of a mode, from whatever state in this mode -/
theorem modeRules_lowers (hk : k.mode = m) :
    Lowers (k.roundsLeft token) (modeRules m token) k := by
  by_cases hm : m = .text
  · subst hm
    exact textRules_lowers hk
  rw [Core.roundsLeft_of_mode hk hm]
  cases m with
  | initial => exact initialRules_lowers k
  | beforeHtml => exact beforeHtmlRules_lowers k
  | beforeHead => exact beforeHeadRules_lowers k
  | inHead => exact inHeadRules_lowers k
  | inHeadNoscript => exact inHeadNoscriptRules_lowers k
  | afterHead => exact afterHeadRules_lowers k
  | inBody => exact inBodyRules_lowers hk
  | text => exact absurd rfl hm
  | afterBody => exact afterBodyRules_lowers k
  | afterAfterBody => exact afterAfterBodyRules_lowers k
  | _ => exact .unsupported _

/-- **A round that asks for another one leaves fewer**, whatever the state. -/
theorem dispatch_lowers (token : Token) (k : Core) :
    Lowers (k.roundsLeft token) (dispatch token) k := by
  refine Anew.bind (HandsOn.foreignStage token k) fun v j hj => ?_
  cases v with
  | done => exact Anew.done
  | toMode =>
    have hsame := hj rfl
    have hleft : j.roundsLeft token = k.roundsLeft token := by
      unfold Core.roundsLeft
      rw [hsame.mode, hsame.originalMode]
    rw [← hleft]
    exact Anew.ask fun c hc => modeRules_lowers (congrArg Core.mode hc).symm

namespace Constructor

theorem round_lowers {s s' : Token × Constructor} (h : round s = .inr s') :
    s'.2.core.roundsLeft s'.1 < s.2.core.roundsLeft s.1 := by
  have hlowers := dispatch_lowers s.1 s.2.core s.2 rfl
  unfold round at h
  rcases hd : (dispatch s.1).run s.2 with ⟨_ | v, c⟩ <;> rw [hd] at h hlowers
  · cases h
  · cases v <;> cases h
    exact hlowers _ rfl

/-- **The rounds of a token come to an end**, after seven of them at the latest. -/
theorem rounds_end (c : Constructor) (token : Token) :
    ∃ n r, n < maxRounds ∧ Loops round n (token, c) r := by
  have hless : ∀ s s', round s = .inr s' →
      s'.2.core.roundsLeft s'.1 - 1 < s.2.core.roundsLeft s.1 - 1 := fun s s' h => by
    have hlt := round_lowers h
    have hpos := s'.2.core.roundsLeft_pos s'.1
    omega
  obtain ⟨n, r, hn, hloop⟩ := Loops.exists_of_measure
    (fun s : Token × Constructor => s.2.core.roundsLeft s.1 - 1) hless (token, c)
  have hle := c.core.roundsLeft_le token
  have hpos := c.core.roundsLeft_pos token
  exact ⟨n, r, by dsimp only at hn; omega, hloop⟩

end Constructor

/-! ## walks along the stack -/

namespace OpenElements
variable (p target boundary isNamed isHtml : NodeId → Bool)

/-- elements come off while the current node has the property -/
def popWhilePass : List NodeId → List NodeId ⊕ List NodeId
  | [] => .inl []
  | id :: r => if p id then .inr r else .inl (id :: r)

/-- elements come off up to and including one with the property -/
def popUntilPass : List NodeId → List NodeId ⊕ List NodeId
  | [] => .inl []
  | id :: r => if p id then .inl r else .inr r

/-- a search in a scope looks at one entry after the other, outwards -/
def reachesPass : List NodeId → Bool ⊕ List NodeId
  | [] => .inl false
  | id :: r => if target id then .inl true else if boundary id then .inl false else .inr r

/-- a search for an entry remembers those that it has passed -/
def splitPass : List NodeId × List NodeId →
    Option (List NodeId × NodeId × List NodeId) ⊕ (List NodeId × List NodeId)
  | (_, []) => .inl none
  | (inside, id :: r) => if p id then .inl (some (inside, id, r)) else .inr (inside ++ [id], r)

/-- the search of an end tag in foreign content -/
def foreignEndPass : List NodeId → ForeignEnd ⊕ List NodeId
  | [] => .inl .nothing
  | [_] => .inl .nothing
  | id :: outer :: r =>
    if isNamed id then .inl (.closeTo (outer :: r))
    else if isHtml outer then .inl .asHtml
    else .inr (outer :: r)

theorem popWhile_loops (ids : List NodeId) :
    LoopsWithin (popWhilePass p) ids.length ids (ids.dropWhile p) := by
  induction ids with
  | nil => exact .stop _ rfl
  | cons id r ih =>
    by_cases hp : p id = true
    · rw [List.dropWhile_cons_of_pos hp]
      exact .goOn (if_pos hp) ih
    · rw [List.dropWhile_cons_of_neg hp]
      exact .stop _ (if_neg hp)

theorem popUntil_loops (ids : List NodeId) :
    LoopsWithin (popUntilPass p) ids.length ids (ids.dropWhile fun id => !p id).tail := by
  induction ids with
  | nil => exact .stop _ rfl
  | cons id r ih =>
    by_cases hp : p id = true
    · rw [List.dropWhile_cons_of_neg (by simp [hp])]
      exact .stop _ (if_pos hp)
    · rw [List.dropWhile_cons_of_pos (by simp [hp])]
      exact .goOn (if_neg hp) ih

theorem reaches_loops (ids : List NodeId) :
    LoopsWithin (reachesPass target boundary) ids.length ids (reaches target boundary ids) := by
  induction ids with
  | nil => exact .stop _ rfl
  | cons id r ih =>
    unfold reaches
    cases ht : target id with
    | true => exact .stop _ (if_pos ht)
    | false =>
      have hpass : reachesPass target boundary (id :: r) =
          if boundary id then .inl false else .inr r := if_neg (by simp [ht])
      cases hb : boundary id with
      | true => exact .stop _ (hpass.trans (if_pos hb))
      | false => exact .goOn (hpass.trans (if_neg (by simp [hb]))) ih

/-- the entries passed so far come first in what is found -/
theorem splitAt?_loops (inside ids : List NodeId) :
    LoopsWithin (splitPass p) ids.length (inside, ids)
      ((splitAt? p ids).map fun found => (inside ++ found.1, found.2)) := by
  induction ids generalizing inside with
  | nil => exact .stop _ rfl
  | cons id r ih =>
    unfold splitAt?
    by_cases hp : p id = true
    · rw [if_pos hp, Option.map_some, List.append_nil]
      exact .stop _ (if_pos hp)
    · have hfound : ((splitAt? p r).map fun found => (id :: found.1, found.2)).map
          (fun found => (inside ++ found.1, found.2)) =
          (splitAt? p r).map fun found => ((inside ++ [id]) ++ found.1, found.2) := by
        rw [Option.map_map]
        congr 1
        funext found
        exact congrArg (·, found.2) (List.append_cons inside id found.1)
      rw [if_neg hp, hfound]
      exact .goOn (if_neg hp) (ih (inside ++ [id]))

theorem foreignEndSearch_loops (ids : List NodeId) :
    LoopsWithin (foreignEndPass isNamed isHtml) ids.length ids
      (foreignEndSearch isNamed isHtml ids) := by
  fun_induction foreignEndSearch isNamed isHtml ids with
  | case1 => exact .stop _ rfl
  | case2 => exact .stop _ rfl
  | case3 id outer r hx => exact .stop _ (if_pos hx)
  | case4 id outer r hx ho => exact .stop _ ((if_neg hx).trans (if_pos ho))
  | case5 id outer r hx ho ih => exact .goOn ((if_neg hx).trans (if_neg ho)) ih

theorem splitAt?_loops_start (ids : List NodeId) :
    LoopsWithin (splitPass p) ids.length ([], ids) (splitAt? p ids) := by
  have hloop := splitAt?_loops p [] ids
  have hfound : ((splitAt? p ids).map fun found => ([] ++ found.1, found.2)) = splitAt? p ids := by
    cases splitAt? p ids <;> rfl
  rw [hfound] at hloop
  exact hloop

end OpenElements

namespace Constructor

/-- elements at which foreign content does not end -/
def isForeign (c : Constructor) : NodeId → Bool :=
  c.tree.elementSatisfies fun e => !e.endsForeignContent

/-- no loop of the rules takes more passes than the stack has entries: neither those that take
elements off, which leave what the rules leave, nor those that search, whatever is asked of the
entries on the way -/
structure WalksEnd (c : Constructor) : Prop where
  impliedEndTags : ∀ except, ∃ left,
    LoopsWithin (OpenElements.popWhilePass (c.tree.implied except)) c.openElements.length
      c.openElements.entries left ∧
    (generateImpliedEndTags except).run c = (.ok (), { c with openElements := ⟨left⟩ })
  popUntil : ∀ names, ∃ left,
    LoopsWithin (OpenElements.popUntilPass (c.tree.isHtmlOneOf names)) c.openElements.length
      c.openElements.entries left ∧
    (popUntilOneOf names).run c = (.ok (), { c with openElements := ⟨left⟩ })
  /-- leaving foreign content, where the error before it is not a failure -/
  breakOut : ∀ kind, ∃ left,
    LoopsWithin (OpenElements.popWhilePass c.isForeign) c.openElements.length
      c.openElements.entries left ∧
    (breakOut kind).run c =
      if c.options.strict then (.error (.parse (c.errorOf kind)), c.recorded (c.errorOf kind))
      else (.ok .toMode, { c.recorded (c.errorOf kind) with openElements := ⟨left⟩ })
  /-- the searches for an element in scope, and for an `a` that nothing seals off -/
  reaches : ∀ target boundary,
    LoopsWithin (OpenElements.reachesPass target boundary) c.openElements.length
      c.openElements.entries (OpenElements.reaches target boundary c.openElements.entries)
  /-- the searches for a list item and for the element of an end tag -/
  splitAt? : ∀ p, LoopsWithin (OpenElements.splitPass p) c.openElements.length
    ([], c.openElements.entries) (OpenElements.splitAt? p c.openElements.entries)
  /-- the search of an end tag in foreign content -/
  foreignEndSearch : ∀ isNamed isHtml,
    LoopsWithin (OpenElements.foreignEndPass isNamed isHtml) c.openElements.length
      c.openElements.entries (HtmlTree.foreignEndSearch isNamed isHtml c.openElements.entries)

theorem walksEnd (c : Constructor) : c.WalksEnd where
  impliedEndTags := fun _ => ⟨_, OpenElements.popWhile_loops _ _, rfl⟩
  popUntil := fun _ => ⟨_, OpenElements.popUntil_loops _ _, rfl⟩
  breakOut := fun kind => by
    refine ⟨_, OpenElements.popWhile_loops _ _, ?_⟩
    unfold HtmlTree.breakOut
    rw [Step.run_bind, parseError_run]
    cases c.options.strict <;> rfl
  reaches := fun _ _ => OpenElements.reaches_loops _ _ _
  splitAt? := fun _ => OpenElements.splitAt?_loops_start _ _
  foreignEndSearch := fun _ _ => OpenElements.foreignEndSearch_loops _ _ _

end Constructor

/-! ## a whole token -/

/-- what is done when the rounds of a token are over -/
def Constructor.closed (token : Token) (r : Except Failure Unit × Constructor) :
    Except Failure Unit × Constructor :=
  match r with
  | (.ok (), c) => (checkSelfClosing token).run c
  | (.error e, c) => (.error e, c)

/-- **A token takes seven rounds at most**, and no walk along the stack takes more passes than the
stack has entries.  This holds of every constructor, so also of one whose document has been taken
away and whose handles name nothing any more.  The rounds are those of a loop that nothing limits:
the limit that `processWithin` has is never reached.  A line feed that is passed over takes none. -/
theorem processing_ends (c : Constructor) (token : Token) :
    (c.skips token = true ∧ (c.process token).1 = .ok () ∨
      ∃ n r, n + 1 ≤ 7 ∧ Loops Constructor.round n (token, c.begun token) r ∧
        c.process token =
          ((Constructor.closed token r).1, (Constructor.closed token r).2.counted)) ∧
      c.WalksEnd := by
  refine ⟨?_, c.walksEnd⟩
  cases hs : c.skips token with
  | true =>
    rw [Constructor.process_of_skips hs]
    exact Or.inl ⟨rfl, rfl⟩
  | false =>
    obtain ⟨n, r, hn, hloop⟩ := (c.begun token).rounds_end token
    refine Or.inr ⟨n, r, hn, hloop, ?_⟩
    have hrun : (processWithin maxRounds token).run (c.begun token) = r := hloop.processWithin hn
    rw [Constructor.process_of_not_skips hs]
    have hprocess : (processToken token).run (c.begun token) = Constructor.closed token r := by
      unfold processToken
      rw [Step.run_bind, hrun]
      rcases r with ⟨_ | _, d⟩ <;> rfl
    rw [hprocess]

/-- an `image` tag at the beginning of a document takes all seven -/
example : ((processWithin 6 (.startTagNamed "image")).run (Constructor.new .default)).1 =
    .error (.invariantViolation .endlessReprocessing) := by decide +kernel

end HtmlTree
