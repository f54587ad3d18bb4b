import MarkupBinding.Proofs.Insert.Search
import MarkupBinding.Proofs.Isolation.Visit
import MarkupBinding.Proofs.Isolation.Woven
import MarkupBinding.Proofs.Tree.Weight

/-!
# A split makes texts lighter

A text that is split is parsed again with the tags of the wrapper around its first insert. Whatever
the parser makes of that, no text that comes of it is as heavy as the text that was split, and all
of them together are no heavier.

* `textWeightAll_fragment_le`: all texts that come of a split.
* `allTexts_fragment`: each of them.
-/

namespace MarkupBinding.Isolation

open Scanner Scanner.Config

variable {options : Options} {content : Text} {found : Text.Found BindingInsert}

/-- The insert that is wrapped, as it was written. -/
def inner (options : Options) (found : Text.Found BindingInsert) : Text :=
  found.hit.markup options.binding

theorem fragment_eq (options : Options) (found : Text.Found BindingInsert) :
    fragment options found = found.before ++ '<' :: (openingRest ++
      (inner options found ++ '<' :: (closingRest ++ found.after))) := by
  have hopening : startTagMarkup wrapperName [] ++ ['>'] = '<' :: openingRest := by decide
  have hclosing : endTagMarkup wrapperName = '<' :: closingRest := by decide
  have hwrap : wrap (inner options found) =
      '<' :: openingRest ++ inner options found ++ '<' :: closingRest := by
    rw [← hopening, ← hclosing, wrap, List.append_assoc (startTagMarkup _ _) ['>']]
    simp only [List.append_assoc, List.nil_append, List.cons_append]
  rw [fragment, show found.hit.markup options.binding = inner options found from rfl, hwrap]
  simp only [List.append_assoc, List.cons_append]

theorem weight_content (hfound : BindingInsert.find? options.binding content = some found) :
    content.weight = found.before.weight + ((inner options found).weight + found.after.weight) := by
  rw [BindingInsert.eq_append_of_find? hfound, Text.weight_append, Text.weight_append]
  rfl

theorem weight_fragment (hfound : BindingInsert.find? options.binding content = some found) :
    (fragment options found).weight = content.weight + 13 := by
  have hbracket := Text.letterWeight_bracket
  have hopening : openingRest.weight = 5 := by decide
  have hclosing : closingRest.weight = 6 := by decide
  rw [weight_content hfound, fragment_eq]
  simp only [Text.weight_append, Text.weight_cons, hbracket, hopening, hclosing]
  omega

/-! ## All texts of a fragment -/

/-- A text without wrapper tags. -/
theorem woven_self (text : Text) : Woven text.weight text := by
  have h := Woven.append .nil text
  rwa [Nat.add_zero, List.append_nil] at h

/-- The end tag of the wrapper is woven into what stands behind the insert. -/
theorem woven_closing (text after : Text) :
    Woven (text.weight + after.weight) (text ++ '<' :: (closingRest ++ after)) :=
  Woven.append (.closing (woven_self after)) text

/-- A raw text element takes more out of the text than the wrapper's tags bring into it. -/
theorem textWeightAll_lt_of_rawTag
    (hfound : BindingInsert.find? options.binding content = some found)
    (hraw : ¬ NoRawTag (tokens (fragment options found))) :
    Token.textWeightAll (tokens (fragment options found)) < content.weight := by
  obtain ⟨name, attrs, hmem, hname⟩ :
      ∃ name attrs, .startTag name attrs ∈ tokens (fragment options found) ∧
        Element.isRawText name = true := by
    by_contra hnone
    refine hraw fun name attrs hmem => ?_
    exact Bool.eq_false_iff.2 fun hname => hnone ⟨name, attrs, hmem, hname⟩
  have hheavy : 14 ≤ name.weight := Text.fourteen_le_weight_of_isRawText hname
  have hlost := Token.textWeightAll_add_weight_le hmem rfl
  have hall := weightAll_tokens_le (fragment options found) false
  rw [weight_fragment hfound] at hall
  have htag : (Token.startTag name attrs).weight = name.weight + 1 := rfl
  omega

/-- The texts that come of a fragment are together no heavier than the text that was split. -/
theorem textWeightAll_fragment_le
    (hfound : BindingInsert.find? options.binding content = some found) :
    Token.textWeightAll (tokens (fragment options found)) ≤ content.weight := by
  by_cases hraw : NoRawTag (tokens (fragment options found))
  · have hwoven := Woven.append (.opening (woven_closing (inner options found) found.after))
      found.before
    rw [← fragment_eq, ← weight_content hfound] at hwoven
    have hrun := textWeightAll_run_le ⟨.data, [], fragment options found⟩ (.data hwoven) hraw
    rwa [Text.weight_nil, Nat.zero_add] at hrun
  · exact Nat.le_of_lt (textWeightAll_lt_of_rawTag hfound hraw)

theorem share_weight_eq (token : Token) :
    Builder.share (Content.weigh Text.weight 0) token = token.textWeight := by
  cases token with
  | data kind content => cases kind <;> rfl
  | _ => rfl

theorem share_one_le (token : Token) :
    Builder.share (Content.weigh (fun _ => 1) 1) token ≤ token.weight := by
  cases token with
  | data kind content =>
    cases kind with
    | text => exact Nat.le_max_left 1 _
    | _ => exact Nat.le_refl 1
  | startTag name attrs => exact Nat.le_add_left 1 _
  | endTag name attrs => exact Nat.le_refl 1
  | endOfInput => exact Nat.le_refl 0

/-- The texts of a parsed text weigh no more than those of its tokens. -/
theorem totalAll_weight_parse_le (markup : Text) (collapses : Bool) :
    Tree.totalAll Text.weight 0 (Tree.parse markup collapses) ≤
      Token.textWeightAll (tokens markup) := by
  have hparse := @Tree.totalAll_parse_le Text.weight 0
    (fun first second => Nat.le_of_eq (Text.weight_append first second)) Text.weight_collapse_le
    markup collapses false
  rwa [List.map_congr_left fun token _ => share_weight_eq token] at hparse

/-- A parsed text has no more nodes than it weighs. -/
theorem totalAll_one_parse_le (markup : Text) (collapses : Bool) :
    Tree.totalAll (fun _ => 1) 1 (Tree.parse markup collapses) ≤ markup.weight := by
  have hparse := @Tree.totalAll_parse_le (fun _ => 1) 1 (fun _ _ => Nat.le_add_right 1 1)
    (fun _ => Nat.le_refl 1) markup collapses false
  have hshares : ∀ tokens : List Token,
      (tokens.map (Builder.share (Content.weigh (fun _ => 1) 1))).sum ≤ Token.weightAll tokens := by
    intro tokens
    induction tokens with
    | nil => exact Nat.le_refl 0
    | cons token tokens ih => exact Nat.add_le_add (share_one_le token) ih
  exact Nat.le_trans hparse (Nat.le_trans (hshares _) (weightAll_tokens_le markup false))

/-! ## Each text of a fragment -/

/-- If texts may weigh as much as all texts of the tokens together, none is too heavy. -/
theorem allTexts_parse {limit : Nat} {markup : Text} (collapses : Bool)
    (h : Token.textWeightAll (tokens markup) ≤ limit) :
    Tree.AllTextsAll (Text.weight · ≤ limit) (Tree.parse markup collapses) :=
  Builder.allTexts_trees (Builder.Light.absorbAll (tokens markup) (n := 0)
    (Builder.Light.empty collapses h))

/-! ## Around the wrapper -/

theorem run_opening (pending rest : Text) :
    run false ⟨.data, pending, '<' :: (openingRest ++ rest)⟩ =
      flush pending ++ .startTag wrapperName [] :: run false ⟨.data, [], rest⟩ :=
  @run_startTag false wrapperName [] ['>'] (by decide) ⟨List.nodup_nil, by simp⟩ (.inl rfl)
    pending rest

theorem run_closing (pending rest : Text) :
    run false ⟨.data, pending, '<' :: (closingRest ++ rest)⟩ =
      flush pending ++ .endTag wrapperName [] :: run false ⟨.data, [], rest⟩ :=
  @run_endTag false wrapperName (by decide) pending rest

/-- Text that waits when a tag is read is added on its own. -/
theorem light_flush {limit : Nat} {b : Builder} {pending : Text} (h : b.Light limit pending.weight) :
    (b.absorbAll (flush pending)).Light limit 0 := by
  refine Builder.Light.absorbAll _ ?_
  rw [textWeightAll_flush, Nat.add_zero]
  exact h

/-- Where the text before the wrapper is read as it stands, the wrapper parts it from the rest. -/
theorem light_of_before {limit : Nat} {before : Text} (collapses : Bool)
    (hbefore : before.weight ≤ limit) {m : Nat} (hm : m ≤ limit) :
    (Builder.absorbAll { collapses } (flush before ++ [.startTag wrapperName []])).Light limit m := by
  rw [Builder.absorbAll_append]
  have hflush := light_flush (Builder.Light.empty collapses hbefore)
  exact hflush.startTag hm (by decide : wrapperName ≠ []) []

/-- Text that waits opens and closes no element. -/
theorem opened_flush (b : Builder) (pending : Text) :
    (b.absorbAll (flush pending)).opened.map Frame.name = b.opened.map Frame.name := by
  cases pending with
  | nil => rfl
  | cons c text =>
    show (b.insertText (c :: text)).opened.map Frame.name = _
    unfold Builder.insertText Builder.insert
    split <;> exact Builder.opened_withSiblings ..

/-- Where the text inside of the wrapper is read as it stands, the wrapper's end parts it from the
rest. -/
theorem light_of_inner {limit : Nat} {b : Builder} {frame : Frame} {opened : List Frame}
    (hopened : b.opened = frame :: opened) (hname : frame.name = wrapperName) {text : Text}
    (h : b.Light limit text.weight) {m : Nat} (hm : m ≤ limit) :
    (b.absorbAll (flush text ++ [.endTag wrapperName []])).Light limit m := by
  rw [Builder.absorbAll_append]
  have hnames := opened_flush b text
  rw [hopened, List.map_cons, hname] at hnames
  cases hnext : (b.absorbAll (flush text)).opened with
  | nil =>
    rw [hnext] at hnames
    cases hnames
  | cons next others =>
    rw [hnext, List.map_cons] at hnames
    have hnext' : next.name = wrapperName := (List.cons.inj hnames).1
    have hvoid : Element.isVoid wrapperName.lowercase = false := by decide
    have hmem : next ∈ (b.absorbAll (flush text)).opened := by
      rw [hnext]
      exact List.mem_cons_self
    exact (light_flush h).endTag_of_opened hm hvoid hmem (by rw [hnext'])

/-- Texts before and behind the wrapper's start tag are apart. -/
theorem allTexts_of_before {limit : Nat} {before markup : Text} {rest : List Token}
    (htokens : tokens markup = flush before ++ .startTag wrapperName [] :: rest)
    (hbefore : before.weight ≤ limit) (hrest : Token.textWeightAll rest ≤ limit)
    (collapses : Bool) : Tree.AllTextsAll (Text.weight · ≤ limit) (Tree.parse markup collapses) := by
  have hlight := light_of_before collapses hbefore hrest
  unfold Tree.parse
  rw [htokens, ← List.singleton_append, ← List.append_assoc, Builder.absorbAll_append]
  exact Builder.allTexts_trees (Builder.Light.absorbAll rest (n := 0) hlight)

/-- Texts inside of the wrapper and behind it are apart. -/
theorem allTexts_of_inner {limit : Nat} {text markup : Text} {rest : List Token}
    (htokens : tokens markup = .startTag wrapperName [] :: (flush text ++ .endTag wrapperName [] :: rest))
    (htext : text.weight ≤ limit) (hrest : Token.textWeightAll rest ≤ limit)
    (collapses : Bool) : Tree.AllTextsAll (Text.weight · ≤ limit) (Tree.parse markup collapses) := by
  have hlight := @light_of_before limit [] collapses (Nat.zero_le limit) text.weight htext
  have hopened : (Builder.absorbAll { collapses } [.startTag wrapperName []]).opened =
      [{ name := wrapperName, attrs := [] }] := rfl
  have hinner := light_of_inner hopened rfl hlight hrest
  unfold Tree.parse
  rw [htokens, Builder.absorbAll_cons, ← List.singleton_append, ← List.append_assoc,
    Builder.absorbAll_append]
  exact Builder.allTexts_trees (Builder.Light.absorbAll rest (n := 0) hinner)

/-- Where nothing stands before the wrapper, the text inside of it is read as it stands and parted
from the rest, or a bracket of it is lost. -/
theorem allTexts_of_first {limit : Nat} {text after markup : Text}
    (htokens : tokens markup = .startTag wrapperName [] ::
      run false ⟨.data, [], text ++ '<' :: (closingRest ++ after)⟩)
    (hraw : NoRawTag (run false ⟨.data, [], text ++ '<' :: (closingRest ++ after)⟩))
    (htext : text.weight ≤ limit) (hafter : after.weight ≤ limit)
    (hboth : text.weight + after.weight ≤ limit + 1) (collapses : Bool) :
    Tree.AllTextsAll (Text.weight · ≤ limit) (Tree.parse markup collapses) := by
  rcases run_literal_or_lost (.closing (woven_self after)) text.length (Nat.le_refl _) hraw with hread | hlost
  · rw [hread, List.nil_append, run_closing] at hraw htokens
    have hrun : Token.textWeightAll (run false ⟨.data, [], after⟩) ≤ Text.weight [] + after.weight :=
      textWeightAll_run_le _ (.data (woven_self after)) fun name attrs hmem =>
        hraw name attrs (List.mem_append_right _ (List.mem_cons_of_mem _ hmem))
    rw [Text.weight_nil, Nat.zero_add] at hrun
    exact allTexts_of_inner htokens htext (Nat.le_trans hrun hafter) collapses
  · rw [Text.weight_nil, Nat.zero_add] at hlost
    exact @allTexts_of_before limit [] markup _ htokens (Nat.zero_le limit) (by omega) collapses

/-- A text that comes of a fragment is lighter than the one that was split: it is a part of it, as
the wrapper stands between, or a bracket of it is lost. -/
theorem allTexts_fragment (hfound : BindingInsert.find? options.binding content = some found)
    (hmixed : ¬ (found.before = [] ∧ found.after = [])) {limit : Nat}
    (hlimit : content.weight = limit + 1) (collapses : Bool) :
    Tree.AllTextsAll (Text.weight · ≤ limit) (Tree.parse (fragment options found) collapses) := by
  by_cases hraw : NoRawTag (tokens (fragment options found))
  · have hwhole := weight_content hfound
    have hinner : 0 < (inner options found).weight :=
      Text.weight_pos (BindingInsert.markup_ne_nil_of_find? hfound)
    have hwoven := woven_closing (inner options found) found.after
    have htokens : tokens (fragment options found) = run false ⟨.data, [], found.before ++ '<' ::
        (openingRest ++ (inner options found ++ '<' :: (closingRest ++ found.after)))⟩ := by
      rw [tokens, fragment_eq]
    rw [htokens] at hraw
    rcases run_literal_or_lost (.opening hwoven) found.before.length (Nat.le_refl _) hraw with
      hread | hlost
    · rw [hread, List.nil_append, run_opening] at hraw htokens
      have hrest : NoRawTag (run false
          ⟨.data, [], inner options found ++ '<' :: (closingRest ++ found.after)⟩) :=
        fun name attrs hmem =>
          hraw name attrs (List.mem_append_right _ (List.mem_cons_of_mem _ hmem))
      by_cases hbefore : found.before = []
      · -- The insert comes first, so something stands behind it.
        have hafter : 0 < found.after.weight :=
          Text.weight_pos fun hnil => hmixed ⟨hbefore, hnil⟩
        rw [hbefore, Text.weight_nil, Nat.zero_add] at hwhole
        rw [hbefore] at htokens
        exact allTexts_of_first htokens hrest (by omega) (by omega) (by omega) collapses
      · have hbefore := Text.weight_pos hbefore
        have hrun := textWeightAll_run_le ⟨.data, [], _⟩ (.data hwoven) hrest
        rw [Text.weight_nil, Nat.zero_add] at hrun
        exact allTexts_of_before htokens (by omega) (by omega) collapses
    · rw [← htokens, Text.weight_nil, Nat.zero_add] at hlost
      exact allTexts_parse collapses (by omega)
  · have hlost := textWeightAll_lt_of_rawTag hfound hraw
    exact allTexts_parse collapses (by omega)

end MarkupBinding.Isolation
