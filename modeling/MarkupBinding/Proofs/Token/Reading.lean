import Mathlib.Data.List.Chain
import MarkupBinding.Token.Scanner
import MarkupBinding.Tree.Markup

/-!
# Reading back what was written

What the scanner makes of each piece of written markup, whatever follows the piece. Data that wait
are given out before the token of the piece, and the scan goes on behind it.

* `run_text`, `run_plain`: characters without an angle bracket, or with such that open no markup,
  join the data that wait.
* `run_startTag`: a start tag gives one token, however it is closed.
* `run_endTag`: so does an end tag.
* `run_comment`, `run_section`, `run_directive`: the other kinds of character data.
* `run_rawText`: raw text up to the end tag of its element.
-/

namespace MarkupBinding

/-! ## Marks -/

/-- A mark whose last character occurs nowhere else in it cannot begin inside of a text and end
inside of the mark that is written behind the text. -/
theorem Text.isPrefixOf?_eq_none {mark text rest : Text} {last : Char} (hlast : last ∉ mark)
    (htext : text ≠ []) (h : ¬ mark ++ [last] <:+: text) :
    (mark ++ [last]).isPrefixOf? (text ++ (mark ++ [last]) ++ rest) = none := by
  cases hp : (mark ++ [last]).isPrefixOf? (text ++ (mark ++ [last]) ++ rest) with
  | none => rfl
  | some after =>
    exfalso
    have heq := Text.isPrefixOf?_eq_some_iff.1 hp
    rw [List.append_assoc, List.append_eq_append_iff] at heq
    rcases heq with ⟨extra, hextra, hafter⟩ | ⟨extra, hextra, _⟩
    · -- The text is a proper part of the mark. What is left of the mark ends in its last character
      -- and is found again at the beginning of the mark.
      have hlen := congrArg List.length hextra
      have hpos := List.length_pos_iff.2 htext
      rw [List.length_append, List.length_append, List.length_singleton] at hlen
      have hpre : extra <+: mark := by
        have hextra : extra <+: mark ++ [last] ++ rest := ⟨after, hafter.symm⟩
        have hmark : mark <+: mark ++ [last] ++ rest := ⟨[last] ++ rest, by simp⟩
        exact List.prefix_of_prefix_length_le hextra hmark (by omega)
      rcases List.eq_nil_or_concat extra with rfl | ⟨front, c, rfl⟩
      · rw [List.append_nil] at hextra
        exact h ⟨[], [], by rw [hextra]; simp⟩
      · have hc : last = c := by simpa using congrArg List.getLast? hextra
        exact hlast (hpre.subset (by simp [hc]))
    · exact h ⟨[], extra, by rw [hextra]; simp⟩

/-- A text is cut at the mark that was written behind it. -/
theorem Text.cut?_append {mark text : Text} {last : Char} (hlast : last ∉ mark)
    (h : ¬ mark ++ [last] <:+: text) (rest : Text) :
    Text.cut? (mark ++ [last]) (text ++ (mark ++ [last]) ++ rest) = some (text, rest) := by
  induction text with
  | nil =>
    have hp : (mark ++ [last]).isPrefixOf? (mark ++ [last] ++ rest) = some rest :=
      Text.isPrefixOf?_eq_some_iff.2 rfl
    unfold Text.cut?
    rw [List.nil_append, hp]
  | cons c text ih =>
    have htail : ¬ mark ++ [last] <:+: text := fun hin => h (List.infix_cons hin)
    have hp : (mark ++ [last]).isPrefixOf? (c :: text ++ (mark ++ [last]) ++ rest) = none :=
      Text.isPrefixOf?_eq_none hlast (List.cons_ne_nil c text) h
    unfold Text.cut?
    rw [hp]
    simp only [List.cons_append]
    rw [ih htail]
    rfl

namespace Scanner

/-! ## Names and values that can be read again -/

/-- A name that a tag can have: it begins with a letter and nothing in it ends it. -/
def IsTagName (name : Text) : Prop :=
  (name.head?.any Text.isLetter) = true ∧ ∀ c ∈ name, endsName c = false

/-- A name that an attribute can have. An equals sign may only come first. -/
def IsAttributeName (name : Text) : Prop :=
  name ≠ [] ∧ (∀ c ∈ name, endsName c = false) ∧ '=' ∉ name.tail

/-- Attributes that can be read again: their names differ, and no value holds a double mark. -/
def AreAttributes (attrs : Attributes) : Prop :=
  (attrs.map (·.1)).Nodup ∧
    ∀ attr ∈ attrs, IsAttributeName attr.1 ∧ Text.doubleMark ∉ attr.2

-- Both look characters up in the name itself; the search for an instance may go through all
-- characters there are.
instance (name : Text) : Decidable (IsTagName name) :=
  @instDecidableAnd _ _ inferInstance (List.decidableBAll _ name)

instance (name : Text) : Decidable (IsAttributeName name) :=
  @instDecidableAnd _ _ inferInstance
    (@instDecidableAnd _ _ (List.decidableBAll _ name) inferInstance)

instance (attrs : Attributes) : Decidable (AreAttributes attrs) :=
  inferInstanceAs (Decidable (_ ∧ _))

/-- Whether a character makes markup of an angle bracket right before it. -/
def opensMarkup (c : Char) : Bool := c = '!' || c = '/' || c = '?' || Text.isLetter c

/-- Text in which no bracket opens markup. -/
def IsPlain (text : Text) : Prop :=
  text.IsChain fun before after => before = '<' → opensMarkup after = false

instance (text : Text) : Decidable (IsPlain text) := inferInstanceAs (Decidable (List.IsChain _ _))

theorem isPlain_of_notMem {text : Text} (h : '<' ∉ text) : IsPlain text := by
  induction text with
  | nil => exact .nil
  | cons c text ih =>
    obtain ⟨hc, htext⟩ := not_or.1 (List.mem_cons.not.1 h)
    exact List.isChain_cons.2 ⟨fun _ _ heq => absurd heq.symm hc, ih htext⟩

/-- A name that is one begins with a letter. -/
theorem IsTagName.eq_cons {name : Text} (h : IsTagName name) :
    ∃ c rest, name = c :: rest ∧ Text.isLetter c = true := by
  cases name with
  | nil => exact absurd h.1 (by simp)
  | cons c rest => exact ⟨c, rest, rfl, h.1⟩

/-- A name that is one is not empty. -/
theorem IsTagName.ne_nil {name : Text} (h : IsTagName name) : name ≠ [] := by
  obtain ⟨c, rest, rfl, _⟩ := h.eq_cons
  exact List.cons_ne_nil c rest

namespace Config

variable {sections : Bool}

/-! ## Runs as steps -/

theorem run_of_advance {config next : Config} {tokens : List Token}
    (h : config.step sections = .advance tokens next) :
    config.run sections = tokens ++ next.run sections := by
  rw [run]
  split
  · next hs => rw [h] at hs; cases hs
  · next hs => rw [h] at hs; cases hs; rfl

theorem run_of_finish {config : Config} {tokens : List Token}
    (h : config.step sections = .finish tokens) : config.run sections = tokens := by
  rw [run]
  split
  · next hs => rw [h] at hs; cases hs; rfl
  · next hs => rw [h] at hs; cases hs

/-- If the tokens of every step from an invariant are of some sort, so are the tokens of a run. -/
theorem forall_mem_run {I : Config → Prop} {Q : Token → Prop}
    (hadvance : ∀ {config next : Config} {tokens : List Token}, I config →
      config.step sections = .advance tokens next → (∀ token ∈ tokens, Q token) ∧ I next)
    (hfinish : ∀ {config : Config} {tokens : List Token}, I config →
      config.step sections = .finish tokens → ∀ token ∈ tokens, Q token)
    (config : Config) (h : I config) : ∀ token ∈ config.run sections, Q token := by
  induction config using run.induct sections with
  | case1 config tokens hstep =>
    rw [run_of_finish hstep]
    exact hfinish h hstep
  | case2 config tokens next hstep ih =>
    obtain ⟨htokens, hnext⟩ := hadvance h hstep
    rw [run_of_advance hstep]
    exact List.forall_mem_append.2 ⟨htokens, ih hnext⟩

/-- Two configurations with the same step have the same run. -/
theorem run_congr {config other : Config}
    (h : config.step sections = other.step sections) :
    config.run sections = other.run sections := by
  cases hs : config.step sections with
  | advance tokens next => rw [run_of_advance hs, run_of_advance (h.symm.trans hs)]
  | finish tokens => rw [run_of_finish hs, run_of_finish (h.symm.trans hs)]

/-! ## Text -/

/-- Characters without an angle bracket join the data that wait. -/
theorem run_text {text : Text} (htext : '<' ∉ text) (pending rest : Text) :
    run sections ⟨.data, pending, text ++ rest⟩ = run sections ⟨.data, pending ++ text, rest⟩ := by
  apply run_congr
  have hall : ∀ c ∈ text, decide (c ≠ '<') = true := by
    intro c hc
    exact decide_eq_true fun heq => htext (heq ▸ hc)
  simp only [step, stepCharacters]
  rw [List.takeWhile_append_of_pos hall, List.dropWhile_append_of_pos hall, List.append_assoc]
  cases List.dropWhile (fun c => decide (c ≠ '<')) rest <;> rfl

/-- At the end of the input the data that wait are given out. -/
theorem run_data_nil (pending : Text) :
    run sections ⟨.data, pending, []⟩ = flush pending ++ [.endOfInput] := by
  apply run_of_finish
  simp [step, stepCharacters, close]

/-- An angle bracket leads out of character data. -/
theorem run_bracket (pending rest : Text) :
    run sections ⟨.data, pending, '<' :: rest⟩ = run sections ⟨.tagOpen, pending, rest⟩ := by
  have hstep : step sections ⟨.data, pending, '<' :: rest⟩ =
      .advance [] ⟨.tagOpen, pending, rest⟩ := by
    simp [step, stepCharacters]
  exact run_of_advance hstep

/-- A bracket is text where nothing behind it makes markup of it. -/
theorem run_tagOpen_plain {rest : Text} (h : ∀ c ∈ rest.head?, opensMarkup c = false)
    (pending : Text) :
    run sections ⟨.tagOpen, pending, rest⟩ = run sections ⟨.data, pending ++ ['<'], rest⟩ := by
  cases rest with
  | nil =>
    have hclose : step sections ⟨.tagOpen, pending, []⟩ =
        .finish (flush (pending ++ ['<']) ++ [.endOfInput]) := rfl
    rw [run_data_nil, run_of_finish hclose]
  | cons c rest =>
    have hc : ((¬ c = '!' ∧ ¬ c = '/') ∧ ¬ c = '?') ∧ Text.isLetter c = false := by
      simpa [opensMarkup] using h c rfl
    have hstep : step sections ⟨.tagOpen, pending, c :: rest⟩ =
        .advance [] ⟨.data, pending ++ ['<'], c :: rest⟩ := by
      simp [step, stepTagOpen, hc]
    exact run_of_advance hstep

/-- A bracket before another bracket is text. -/
theorem run_tagOpen_bracket (pending rest : Text) :
    run sections ⟨.tagOpen, pending, '<' :: rest⟩ =
      run sections ⟨.data, pending ++ ['<'], '<' :: rest⟩ := by
  refine run_tagOpen_plain ?_ pending
  intro c hc
  cases hc
  decide

/-- Plain text joins the data that wait, brackets and all. -/
theorem run_plain {text rest : Text} (htext : IsPlain text)
    (hrest : ∀ c ∈ rest.head?, opensMarkup c = false) (pending : Text) :
    run sections ⟨.data, pending, text ++ rest⟩ = run sections ⟨.data, pending ++ text, rest⟩ := by
  induction text generalizing pending with
  | nil => rw [List.nil_append, List.append_nil]
  | cons c text ih =>
    obtain ⟨hnext, htail⟩ := List.isChain_cons.1 htext
    have hread : run sections ⟨.data, pending, c :: (text ++ rest)⟩ =
        run sections ⟨.data, pending ++ [c], text ++ rest⟩ := by
      by_cases hc : c = '<'
      · subst hc
        rw [run_bracket]
        refine run_tagOpen_plain ?_ pending
        intro d hd
        cases text with
        | nil => exact hrest d hd
        | cons e text => exact hnext d hd rfl
      · exact @run_text sections [c] (by simpa using Ne.symm hc) pending (text ++ rest)
    rw [List.cons_append, hread, ih htail, List.append_assoc, List.singleton_append]

/-! ## Tags -/

/-- The mode behind a finished tag. -/
def modeAfter (draft : Draft) : Mode :=
  if draft.side = .opening && Element.isRawText draft.name then .rawText draft.name else .data

/-- The closing bracket of a tag gives it out. -/
theorem run_beforeAttribute_close (draft : Draft) (pending rest : Text) :
    run sections ⟨.beforeAttribute draft, pending, '>' :: rest⟩ =
      flush pending ++ draft.token :: run sections ⟨modeAfter draft, [], rest⟩ := by
  have hstep : step sections ⟨.beforeAttribute draft, pending, '>' :: rest⟩ =
      .advance (flush pending ++ [draft.token]) ⟨modeAfter draft, [], rest⟩ := by
    simp [step, stepBeforeAttribute, emitTag, modeAfter, isSpace]
  rw [run_of_advance hstep, List.append_assoc]
  rfl

/-- A slash before the closing bracket means nothing. -/
theorem run_beforeAttribute_slash (draft : Draft) (pending rest : Text) :
    run sections ⟨.beforeAttribute draft, pending, '/' :: '>' :: rest⟩ =
      flush pending ++ draft.token :: run sections ⟨modeAfter draft, [], rest⟩ := by
  have hslash : step sections ⟨.beforeAttribute draft, pending, '/' :: '>' :: rest⟩ =
      .advance [] ⟨.selfClosing draft, pending, '>' :: rest⟩ := by
    simp [step, stepBeforeAttribute, enter, isSpace]
  have hclose : step sections ⟨.selfClosing draft, pending, '>' :: rest⟩ =
      .advance (flush pending ++ [draft.token]) ⟨modeAfter draft, [], rest⟩ := by
    simp [step, stepSelfClosing, emitTag, modeAfter]
  rw [run_of_advance hslash, run_of_advance hclose, List.nil_append, List.append_assoc]
  rfl

/-- A space between the parts of a tag is passed over. -/
theorem run_beforeAttribute_space (draft : Draft) (pending rest : Text) :
    run sections ⟨.beforeAttribute draft, pending, ' ' :: rest⟩ =
      run sections ⟨.beforeAttribute draft, pending, rest⟩ := by
  apply run_congr
  have hspace : isSpace ' ' = true := by decide
  simp only [step, stepBeforeAttribute]
  rw [List.dropWhile_cons_of_pos hspace]
  cases List.dropWhile isSpace rest <;> rfl

/-- What the scan goes through for one attribute between double marks. -/
theorem run_attribute {key value : Text} (hkey : IsAttributeName key)
    (hvalue : Text.doubleMark ∉ value) (draft : Draft) (pending rest : Text) :
    run sections ⟨.beforeAttribute draft, pending,
        key ++ ['=', '"'] ++ value ++ ['"'] ++ rest⟩ =
      run sections ⟨.beforeAttribute (draft.add key value), pending, rest⟩ := by
  obtain ⟨hne, hends, heq⟩ := hkey
  obtain ⟨c, key, rfl⟩ := List.exists_cons_of_ne_nil hne
  have hc : isSpace c = false ∧ c ≠ '/' ∧ c ≠ '>' := by
    simpa [endsName, and_assoc] using hends c List.mem_cons_self
  -- The rest of the name has no equals sign, so the one that was written ends it.
  have hkey : ∀ a ∈ key, (!endsAttributeName a) = true := by
    intro a ha
    have hname := hends a (List.mem_cons_of_mem c ha)
    have hsign : a ≠ '=' := fun h => heq (h ▸ ha)
    simp [endsAttributeName, hname, hsign]
  have hval : ∀ a ∈ value, decide (a ≠ '"') = true := by
    intro a ha
    exact decide_eq_true fun h => hvalue (show '"' ∈ value from h ▸ ha)
  have hname : step sections ⟨.beforeAttribute draft, pending,
        c :: key ++ ['=', '"'] ++ value ++ ['"'] ++ rest⟩ =
      .advance [] ⟨.attributeName draft, pending, c :: key ++ ['=', '"'] ++ value ++ ['"'] ++ rest⟩ := by
    simp [step, stepBeforeAttribute, enter, hc]
  have hsign : step sections ⟨.attributeName draft, pending,
        c :: key ++ ['=', '"'] ++ value ++ ['"'] ++ rest⟩ =
      .advance [] ⟨.beforeValue draft (c :: key), pending, '"' :: value ++ ['"'] ++ rest⟩ := by
    have hstop : (!endsAttributeName '=') = false := by decide
    simp only [step, stepAttributeName, List.cons_append, List.append_assoc, List.nil_append]
    rw [List.takeWhile_append_of_pos hkey, List.dropWhile_append_of_pos hkey,
      List.takeWhile_cons_of_neg (by simp [hstop]), List.dropWhile_cons_of_neg (by simp [hstop])]
    simp [enter]
  have hmark : step sections ⟨.beforeValue draft (c :: key), pending,
        '"' :: value ++ ['"'] ++ rest⟩ =
      .advance [] ⟨.quotedValue draft (c :: key) '"', pending, value ++ ['"'] ++ rest⟩ := by
    simp [step, stepBeforeValue, enter, isSpace, Text.doubleMark]
  have hclose : step sections ⟨.quotedValue draft (c :: key) '"', pending, value ++ ['"'] ++ rest⟩ =
      .advance [] ⟨.beforeAttribute (draft.add (c :: key) value), pending, rest⟩ := by
    simp only [step, stepQuotedValue, List.append_assoc]
    rw [List.takeWhile_append_of_pos hval, List.dropWhile_append_of_pos hval]
    simp [enter]
  rw [run_of_advance hname, run_of_advance hsign, run_of_advance hmark, run_of_advance hclose]
  rfl

/-- A new name goes last. -/
theorem insertNew_of_notMem {attrs : Attributes} {key : Text} (h : key ∉ attrs.map (·.1))
    (value : Text) : Entries.insertNew attrs key value = attrs ++ [(key, value)] := by
  have hany : attrs.any (·.1 == key) = false := by
    rw [List.any_eq_false]
    intro attr hattr heq
    exact h (List.mem_map.2 ⟨attr, hattr, eq_of_beq heq⟩)
  rw [Entries.insertNew, hany]
  rfl

/-- What closes a tag: a bracket, or a slash and a bracket. -/
def IsClosing (closing : Text) : Prop := closing = ['>'] ∨ closing = " />".toList

/-- All written attributes are read, in order. -/
theorem run_attributes {closing : Text} (hclosing : IsClosing closing) (side : Side)
    (name pending rest : Text) :
    ∀ {attrs done : Attributes}, (done ++ attrs).map (·.1) |>.Nodup →
      (∀ attr ∈ attrs, IsAttributeName attr.1 ∧ Text.doubleMark ∉ attr.2) →
      run sections ⟨.beforeAttribute ⟨side, name, done⟩, pending,
          (attrs.flatMap fun (key, value) => ' ' :: key ++ ['=', '"'] ++ value ++ ['"']) ++
            closing ++ rest⟩ =
        flush pending ++ Draft.token ⟨side, name, done ++ attrs⟩ ::
          run sections ⟨modeAfter ⟨side, name, done ++ attrs⟩, [], rest⟩ := by
  intro attrs
  induction attrs with
  | nil =>
    intro done _ _
    rw [List.append_nil]
    rcases hclosing with rfl | rfl
    · exact run_beforeAttribute_close _ pending rest
    · exact (run_beforeAttribute_space _ pending _).trans (run_beforeAttribute_slash _ pending rest)
  | cons attr attrs ih =>
    intro done hnodup hattrs
    obtain ⟨key, value⟩ := attr
    obtain ⟨hkey, hvalue⟩ := hattrs (key, value) List.mem_cons_self
    have hnew : key ∉ done.map (·.1) := by
      rw [List.map_append, List.map_cons] at hnodup
      intro hmem
      exact (List.nodup_append.1 hnodup).2.2 key hmem key List.mem_cons_self rfl
    have hdone : done ++ (key, value) :: attrs = (done ++ [(key, value)]) ++ attrs := by simp
    have hadd : Draft.add ⟨side, name, done⟩ key value = ⟨side, name, done ++ [(key, value)]⟩ := by
      rw [Draft.add, insertNew_of_notMem hnew]
    rw [hdone, List.flatMap_cons]
    simp only [List.cons_append, List.append_assoc]
    rw [run_beforeAttribute_space]
    have hread := @run_attribute sections key value hkey hvalue ⟨side, name, done⟩ pending
      ((attrs.flatMap fun (key, value) => ' ' :: key ++ ['=', '"'] ++ value ++ ['"']) ++
        (closing ++ rest))
    simp only [List.cons_append, List.append_assoc] at hread
    rw [hread, hadd]
    have hnodup : ((done ++ [(key, value)] ++ attrs).map (·.1)).Nodup := by
      rw [← hdone]
      exact hnodup
    have hrest := ih hnodup (fun attr hattr => hattrs attr (List.mem_cons_of_mem _ hattr))
    simpa only [List.cons_append, List.append_assoc] using hrest

/-- A written tag up to its closing, from the first letter of its name on. -/
theorem run_tag {name : Text} {attrs : Attributes} {closing : Text} (hname : IsTagName name)
    (hattrs : AreAttributes attrs) (hclosing : IsClosing closing) (side : Side)
    (pending rest : Text) :
    run sections ⟨.tagName side, pending,
        name ++ (attrs.flatMap fun (key, value) => ' ' :: key ++ ['=', '"'] ++ value ++ ['"']) ++
          closing ++ rest⟩ =
      flush pending ++ Draft.token ⟨side, name, attrs⟩ ::
        run sections ⟨modeAfter ⟨side, name, attrs⟩, [], rest⟩ := by
  have hall : ∀ c ∈ name, (!endsName c) = true := by
    intro c hc
    rw [hname.2 c hc]
    rfl
  -- A space behind the name leads to the attributes; without one the bracket ends the tag.
  have hstep : ∀ after : Text, step sections ⟨.tagName side, pending, name ++ ' ' :: after⟩ =
      .advance [] ⟨.beforeAttribute ⟨side, name, []⟩, pending, after⟩ := by
    intro after
    simp only [step, stepTagName]
    rw [List.takeWhile_append_of_pos hall, List.dropWhile_append_of_pos hall,
      List.takeWhile_cons_of_neg (by decide), List.dropWhile_cons_of_neg (by decide)]
    simp [enter]
  have hread := @run_attributes sections closing hclosing side name pending rest attrs [] hattrs.1
    hattrs.2
  rw [List.nil_append] at hread
  cases attrs with
  | cons attr attrs =>
    simp only [List.flatMap_cons, List.cons_append, List.append_assoc] at hread ⊢
    rw [run_of_advance (hstep _), List.nil_append, ← hread, run_beforeAttribute_space]
  | nil =>
    rcases hclosing with rfl | rfl
    · have hclose : step sections ⟨.tagName side, pending, name ++ ['>'] ++ rest⟩ =
          .advance (flush pending ++ [Draft.token ⟨side, name, []⟩])
            ⟨modeAfter ⟨side, name, []⟩, [], rest⟩ := by
        simp only [step, stepTagName, List.append_assoc]
        rw [List.takeWhile_append_of_pos hall, List.dropWhile_append_of_pos hall,
          List.cons_append, List.takeWhile_cons_of_neg (by decide),
          List.dropWhile_cons_of_neg (by decide)]
        simp [emitTag, modeAfter]
      rw [List.flatMap_nil, List.append_nil, run_of_advance hclose, List.append_assoc]
      rfl
    · have hspace : name ++ " />".toList ++ rest = name ++ ' ' :: ("/>".toList ++ rest) := by
        simp
      rw [List.flatMap_nil, List.append_nil, hspace, run_of_advance (hstep _), List.nil_append]
      exact run_beforeAttribute_slash _ pending rest

/-- A start tag gives one token, however it is closed. -/
theorem run_startTag {name : Text} {attrs : Attributes} {closing : Text} (hname : IsTagName name)
    (hattrs : AreAttributes attrs) (hclosing : IsClosing closing) (pending rest : Text) :
    run sections ⟨.data, pending, startTagMarkup name attrs ++ closing ++ rest⟩ =
      flush pending ++ .startTag name attrs ::
        run sections ⟨modeAfter ⟨.opening, name, attrs⟩, [], rest⟩ := by
  have hread := @run_tag sections name attrs closing hname hattrs hclosing .opening pending rest
  obtain ⟨c, letters, rfl, hc⟩ := hname.eq_cons
  have hopen : ∀ after : Text, step sections ⟨.tagOpen, pending, c :: after⟩ =
      .advance [] ⟨.tagName .opening, pending, c :: after⟩ := by
    intro after
    have hsign : c ≠ '!' ∧ c ≠ '/' ∧ c ≠ '?' := by
      refine ⟨?_, ?_, ?_⟩ <;> (rintro rfl; revert hc; decide)
    simp [step, stepTagOpen, enter, hsign, hc]
  simp only [startTagMarkup, List.cons_append] at hread ⊢
  rw [run_bracket, run_of_advance (hopen _), List.nil_append, hread]
  rfl

/-- An end tag gives one token. -/
theorem run_endTag {name : Text} (hname : IsTagName name) (pending rest : Text) :
    run sections ⟨.data, pending, endTagMarkup name ++ rest⟩ =
      flush pending ++ .endTag name [] :: run sections ⟨.data, [], rest⟩ := by
  have hread := @run_tag sections name [] ['>'] hname ⟨List.nodup_nil, by simp⟩ (.inl rfl) .closing
    pending rest
  obtain ⟨c, letters, rfl, hc⟩ := hname.eq_cons
  have hslash : step sections ⟨.tagOpen, pending, '/' :: c :: letters ++ ['>'] ++ rest⟩ =
      .advance [] ⟨.endTagOpen, pending, c :: letters ++ ['>'] ++ rest⟩ := by
    simp [step, stepTagOpen, enter]
  have hopen : step sections ⟨.endTagOpen, pending, c :: letters ++ ['>'] ++ rest⟩ =
      .advance [] ⟨.tagName .closing, pending, c :: letters ++ ['>'] ++ rest⟩ := by
    simp [step, stepEndTagOpen, enter, hc]
  rw [List.flatMap_nil, List.append_nil] at hread
  simp only [endTagMarkup, List.cons_append, List.nil_append] at hslash hopen hread ⊢
  rw [run_bracket, run_of_advance hslash, run_of_advance hopen, List.nil_append, List.nil_append,
    hread]
  rfl

/-- The closing bracket of an end tag is its last character. -/
theorem eq_nil_of_bracket {name part : Text} (hname : IsTagName name)
    (h : '>' :: part <:+ endTagMarkup name) : part = [] := by
  obtain ⟨front, hfront⟩ := h
  rcases List.eq_nil_or_concat part with rfl | ⟨middle, last, rfl⟩
  · rfl
  · exfalso
    have hdrop : '<' :: '/' :: name = front ++ '>' :: middle := by
      have hlast := congrArg List.dropLast hfront
      rw [endTagMarkup, List.dropLast_concat, List.concat_eq_append, ← List.cons_append,
        ← List.append_assoc, List.dropLast_concat] at hlast
      exact hlast.symm
    have hmem : '>' ∈ '<' :: '/' :: name := by
      rw [hdrop]
      exact List.mem_append_right _ List.mem_cons_self
    have hmem' : '>' ∈ name := by simpa using hmem
    have hends := hname.2 _ hmem'
    exact absurd hends (by decide)

/-! ## Comments, marked sections and directives -/

/-- Content that can be read again as one node of its kind. Text may not open markup; the other
kinds may not hold what closes them, and a directive may not begin like one of them. -/
def IsContent : DataKind → Text → Prop
  | .text, content => content ≠ [] ∧ '<' ∉ content
  | .comment, content => ¬ "-->".toList <:+: content
  | .cdata, content => ∃ inside, content = '!' :: sectionOpening ++ inside ++ "]]".toList ∧
      ¬ sectionClosing <:+: inside
  | .directive, content => (content.head? = some '!' ∨ content.head? = some '?') ∧ '>' ∉ content ∧
      ¬ "!--".toList <+: content ∧ ¬ '!' :: sectionOpening <+: content

/-- Data that are read up to a mark, which does not occur in them. -/
theorem run_stepData {config : Config} {mark : Text} {last : Char} {kind : DataKind}
    {sign content rest : Text} (hrest : config.rest = content ++ (mark ++ [last]) ++ rest)
    (hstep : config.step sections = config.stepData (mark ++ [last]) kind sign)
    (hlast : last ∉ mark) (hcontent : ¬ mark ++ [last] <:+: content) :
    config.run sections =
      flush config.pending ++ .data kind (sign ++ content) :: run sections ⟨.data, [], rest⟩ := by
  have hemit : config.step sections =
      .advance (flush config.pending ++ [.data kind (sign ++ content)]) ⟨.data, [], rest⟩ := by
    rw [hstep, stepData, hrest, Text.cut?_append hlast hcontent]
    rfl
  rw [run_of_advance hemit, List.append_assoc]
  rfl

theorem run_comment {content : Text} (h : ¬ "-->".toList <:+: content) (pending rest : Text) :
    run sections ⟨.data, pending, "<!--".toList ++ content ++ "-->".toList ++ rest⟩ =
      flush pending ++ .data .comment content :: run sections ⟨.data, [], rest⟩ := by
  have hopen : step sections ⟨.tagOpen, pending, "!--".toList ++ content ++ "-->".toList ++ rest⟩ =
      .advance [] ⟨.declarationOpen, pending, "--".toList ++ content ++ "-->".toList ++ rest⟩ := by
    simp [step, stepTagOpen, enter]
  have hdash : step sections
        ⟨.declarationOpen, pending, "--".toList ++ content ++ "-->".toList ++ rest⟩ =
      .advance [] ⟨.comment, pending, content ++ "-->".toList ++ rest⟩ := by
    have hp : "--".toList.isPrefixOf? ("--".toList ++ content ++ "-->".toList ++ rest) =
        some (content ++ "-->".toList ++ rest) :=
      Text.isPrefixOf?_eq_some_iff.2 (by simp)
    simp only [step, stepDeclarationOpen, hp, enter]
  have hread := @run_stepData sections ⟨.comment, pending, content ++ "-->".toList ++ rest⟩
    ['-', '-'] '>' .comment [] content rest rfl rfl (by decide) h
  rw [show "<!--".toList ++ content ++ "-->".toList ++ rest =
      '<' :: ("!--".toList ++ content ++ "-->".toList ++ rest) from rfl,
    run_bracket, run_of_advance hopen, run_of_advance hdash, hread]
  rfl

/-- Where marked sections are recognized a section is read as one. -/
theorem run_section {inside : Text} (h : ¬ sectionClosing <:+: inside) (pending rest : Text) :
    run true ⟨.data, pending, '<' :: '!' :: sectionOpening ++ inside ++ sectionClosing ++ rest⟩ =
      flush pending ++ .data .cdata ('!' :: sectionOpening ++ inside ++ "]]".toList) ::
        run true ⟨.data, [], rest⟩ := by
  have hopen : step true
        ⟨.tagOpen, pending, '!' :: sectionOpening ++ inside ++ sectionClosing ++ rest⟩ =
      .advance [] ⟨.declarationOpen, pending, sectionOpening ++ inside ++ sectionClosing ++ rest⟩ := by
    simp [step, stepTagOpen, enter]
  have hsection : step true
        ⟨.declarationOpen, pending, sectionOpening ++ inside ++ sectionClosing ++ rest⟩ =
      .advance (flush pending ++ [sectionToken true inside]) ⟨.data, [], rest⟩ := by
    have hdash : "--".toList.isPrefixOf? (sectionOpening ++ inside ++ sectionClosing ++ rest) =
        none := rfl
    have hp : sectionOpening.isPrefixOf? (sectionOpening ++ inside ++ sectionClosing ++ rest) =
        some (inside ++ sectionClosing ++ rest) :=
      Text.isPrefixOf?_eq_some_iff.2 (by simp)
    have hcut : Text.cut? sectionClosing (inside ++ sectionClosing ++ rest) = some (inside, rest) :=
      @Text.cut?_append [']', ']'] inside '>' (by decide) h rest
    simp only [step, stepDeclarationOpen, hdash, hp, hcut, emit]
  rw [List.cons_append, List.cons_append, List.cons_append, run_bracket, run_of_advance hopen,
    run_of_advance hsection, List.nil_append, List.append_assoc]
  rfl

theorem run_directive {content : Text} (h : IsContent .directive content) (pending rest : Text) :
    run sections ⟨.data, pending, '<' :: content ++ ['>'] ++ rest⟩ =
      flush pending ++ .data .directive content :: run sections ⟨.data, [], rest⟩ := by
  obtain ⟨hsign, hclose, hcomment, hsection⟩ := h
  cases content with
  | nil => simp at hsign
  | cons c content =>
    have hinside : ¬ ([] ++ ['>'] : Text) <:+: content := by
      intro hin
      exact hclose (List.mem_cons_of_mem c (hin.subset List.mem_cons_self))
    rw [List.cons_append, List.cons_append, run_bracket]
    rcases hsign with hc | hc
    · cases hc
      have hopen : step sections ⟨.tagOpen, pending, '!' :: content ++ ['>'] ++ rest⟩ =
          .advance [] ⟨.declarationOpen, pending, content ++ ['>'] ++ rest⟩ := by
        simp [step, stepTagOpen, enter]
      -- Neither opening reaches over the closing bracket, which occurs in none of the two.
      have hnone : ∀ mark : Text, '>' ∉ mark → ¬ '!' :: mark <+: '!' :: content →
          mark.isPrefixOf? (content ++ ['>'] ++ rest) = none := by
        intro mark hmark hpre
        cases hp : mark.isPrefixOf? (content ++ ['>'] ++ rest) with
        | none => rfl
        | some after =>
          exfalso
          have heq := Text.isPrefixOf?_eq_some_iff.1 hp
          rw [List.append_assoc, List.append_eq_append_iff] at heq
          rcases heq with ⟨extra, hextra, hafter⟩ | ⟨extra, hextra, _⟩
          · cases extra with
            | nil => exact hpre ⟨[], by rw [hextra]; simp⟩
            | cons a extra =>
              cases hafter
              exact hmark (by rw [hextra]; simp)
          · exact hpre ⟨extra, by rw [hextra]; simp⟩
      have hdeclaration : step sections ⟨.declarationOpen, pending, content ++ ['>'] ++ rest⟩ =
          .advance [] ⟨.declaration, pending, content ++ ['>'] ++ rest⟩ := by
        simp only [step, stepDeclarationOpen, hnone "--".toList (by decide) hcomment,
          hnone sectionOpening (by decide) hsection, enter]
      rw [run_of_advance hopen, run_of_advance hdeclaration]
      exact @run_stepData sections ⟨.declaration, pending, content ++ ['>'] ++ rest⟩ [] '>'
        .directive ['!'] content rest rfl rfl (by decide) hinside
    · cases hc
      have hopen : step sections ⟨.tagOpen, pending, '?' :: content ++ ['>'] ++ rest⟩ =
          .advance [] ⟨.instruction, pending, content ++ ['>'] ++ rest⟩ := by
        simp [step, stepTagOpen, enter]
      rw [run_of_advance hopen]
      exact @run_stepData sections ⟨.instruction, pending, content ++ ['>'] ++ rest⟩ [] '>'
        .directive ['?'] content rest rfl rfl (by decide) hinside

/-- Character data other than text are one token. -/
theorem run_data {kind : DataKind} {content : Text} (hkind : kind ≠ .text)
    (h : IsContent kind content) (pending rest : Text) :
    run true ⟨.data, pending, kind.markup content ++ rest⟩ =
      flush pending ++ .data kind content :: run true ⟨.data, [], rest⟩ := by
  cases kind with
  | text => exact absurd rfl hkind
  | comment => exact run_comment h pending rest
  | cdata =>
    obtain ⟨inside, rfl, hinside⟩ := h
    rw [← run_section hinside pending rest]
    simp [DataKind.markup, sectionClosing]
  | directive => exact run_directive h pending rest

/-! ## Raw text -/

/-- Raw text holds no end tag of its element: nowhere a bracket and a slash are followed by the
name, in any case, and a character that ends it. -/
def IsRawContent (name content : Text) : Prop :=
  ∀ before after, content = before ++ '<' :: '/' :: after → beginsWithName name after = false

/-- Raw text with the bracket and slash behind it stands at the front of the text. -/
theorem eq_append_of_rawEnd? {name text raw rest : Text} (h : rawEnd? name text = some (raw, rest)) :
    text = raw ++ '<' :: '/' :: rest := by
  induction text generalizing raw with
  | nil => cases h
  | cons c text ih =>
    have hlater : ∀ {raw' : Text}, (rawEnd? name text).map (fun found => (c :: found.1, found.2)) =
        some (raw', rest) → c :: text = raw' ++ '<' :: '/' :: rest := by
      intro raw' hmap
      obtain ⟨⟨raw'', rest''⟩, hraw, hfound⟩ := Option.map_eq_some_iff.1 hmap
      obtain ⟨rfl, rfl⟩ := Prod.mk.inj hfound
      rw [ih hraw]
      rfl
    unfold rawEnd? at h
    split at h
    · split at h
      · next hhit =>
        cases h
        simp only [Bool.and_eq_true, decide_eq_true_eq] at hhit
        rw [hhit.1]
        rfl
      · exact hlater h
    · exact hlater h

/-- No end tag is found in raw text that holds none, and only there. -/
theorem rawEnd?_eq_none_iff {name content : Text} :
    rawEnd? name content = none ↔ IsRawContent name content := by
  induction content with
  | nil =>
    refine ⟨fun _ before after h => ?_, fun _ => rfl⟩
    cases before <;> cases h
  | cons c content ih =>
    constructor
    · intro h before after heq
      rw [rawEnd?.eq_def] at h
      cases before with
      | nil =>
        cases heq
        cases hname : beginsWithName name after with
        | false => rfl
        | true => simp [hname] at h
      | cons b before =>
        cases heq
        refine ih.1 ?_ before after rfl
        simp only at h
        split at h
        · split at h
          · cases h
          · exact Option.map_eq_none_iff.1 h
        · exact Option.map_eq_none_iff.1 h
    · intro h
      have hrest := ih.2 fun before after heq => h (c :: before) after (by rw [heq]; rfl)
      rw [rawEnd?.eq_def]
      simp only
      split
      · next after =>
        split
        · next hhit =>
          simp only [Bool.and_eq_true, decide_eq_true_eq] at hhit
          have hno := h [] after (by rw [hhit.1]; rfl)
          rw [hhit.2] at hno
          cases hno
        · rw [hrest]
          rfl
      · rw [hrest]
        rfl

instance (name content : Text) : Decidable (IsRawContent name content) :=
  decidable_of_iff _ rawEnd?_eq_none_iff

/-- An angle bracket matches no letter but itself. -/
theorem matchesLetter_bracket {letter : Char} (h : letter ≠ '<') :
    matchesLetter letter '<' = false := by
  have hlower : letter.toLower ≠ '<' := by
    intro heq
    delta Char.toLower at heq
    split at heq
    · next hupper =>
      have hlow : 65 ≤ letter.toNat := UInt32.le_iff_toNat_le.1 hupper.1
      have hhigh : letter.toNat ≤ 90 := UInt32.le_iff_toNat_le.1 hupper.2
      have hval := congrArg (·.val.toNat) heq
      simp at hval
      omega
    · exact h heq
  simp [matchesLetter, hlower.symm]

theorem matchesLetter_self (letter : Char) : matchesLetter letter letter = true := by
  simp [matchesLetter]

theorem beginsWithName_self (name rest : Text) :
    beginsWithName name (name ++ '>' :: rest) = true := by
  induction name with
  | nil => rfl
  | cons letter name ih =>
    show (matchesLetter letter letter && beginsWithName name (name ++ '>' :: rest)) = true
    rw [matchesLetter_self, ih]
    rfl

/-- No name is completed by an angle bracket. -/
theorem beginsWithName_append_bracket {name : Text} (hname : '<' ∉ name) (text rest : Text) :
    beginsWithName name (text ++ '<' :: rest) = beginsWithName name text := by
  induction name generalizing text with
  | nil =>
    cases text with
    | nil => rfl
    | cons c text => rfl
  | cons letter name ih =>
    have hletter : letter ≠ '<' := fun h => hname (h ▸ List.mem_cons_self)
    cases text with
    | nil =>
      show (matchesLetter letter '<' && beginsWithName name rest) = false
      rw [matchesLetter_bracket hletter]
      rfl
    | cons c text =>
      show (matchesLetter letter c && beginsWithName name (text ++ '<' :: rest)) =
        (matchesLetter letter c && beginsWithName name text)
      rw [ih (fun h => hname (List.mem_cons_of_mem letter h))]

/-- Raw text ends at the end tag of its element. -/
theorem rawEnd?_append {name content : Text} (hname : '<' ∉ name)
    (hcontent : IsRawContent name content) (rest : Text) :
    rawEnd? name (content ++ '<' :: '/' :: (name ++ '>' :: rest)) =
      some (content, name ++ '>' :: rest) := by
  induction content with
  | nil =>
    rw [List.nil_append, rawEnd?, beginsWithName_self]
    rfl
  | cons c content ih =>
    have ih := ih fun before after h => hcontent (c :: before) after (by rw [h]; rfl)
    cases content with
    | nil =>
      rw [List.nil_append] at ih
      rw [List.cons_append, List.nil_append, rawEnd?, ih]
      · rfl
      · intro after h
        cases h
    | cons d content =>
      rw [List.cons_append] at ih ⊢
      rw [List.cons_append, rawEnd?.eq_def]
      by_cases hd : d = '/'
      · subst hd
        by_cases hc : c = '<'
        · subst hc
          have hno : beginsWithName name (content ++ '<' :: '/' :: (name ++ '>' :: rest)) = false := by
            rw [beginsWithName_append_bracket hname]
            exact hcontent [] content rfl
          simp [hno, ih]
        · simp [hc, ih]
      · simp [hd, ih]

/-- Raw text up to its end tag is given out as one text, which may be empty. -/
theorem run_rawText {name content : Text} (hname : IsTagName name) (hbracket : '<' ∉ name)
    (hcontent : IsRawContent name content) (rest : Text) :
    run sections ⟨.rawText name, [], content ++ endTagMarkup name ++ rest⟩ =
      flush content ++ .endTag name [] :: run sections ⟨.data, [], rest⟩ := by
  have hraw : step sections ⟨.rawText name, [], content ++ endTagMarkup name ++ rest⟩ =
      .advance (flush content) ⟨.endTagOpen, [], name ++ '>' :: rest⟩ := by
    have hend := rawEnd?_append hbracket hcontent rest
    simp only [step, stepRawText, endTagMarkup, List.append_assoc, List.cons_append,
      List.nil_append] at hend ⊢
    rw [hend]
  have hopen : step sections ⟨.endTagOpen, [], name ++ '>' :: rest⟩ =
      .advance [] ⟨.tagName .closing, [], name ++ '>' :: rest⟩ := by
    obtain ⟨c, letters, rfl, hc⟩ := hname.eq_cons
    simp [step, stepEndTagOpen, enter, hc]
  have hread := @run_tag sections name [] ['>'] hname ⟨List.nodup_nil, by simp⟩ (.inl rfl) .closing
    [] rest
  rw [List.flatMap_nil, List.append_nil, List.append_assoc] at hread
  rw [run_of_advance hraw, run_of_advance hopen, List.nil_append]
  exact congrArg (flush content ++ ·) hread

end Config
end Scanner
end MarkupBinding
