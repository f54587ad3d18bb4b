import MarkupBinding.Proofs.Token.CursorState

/-!
# A cursor inside of a tag

Every pass inside of a tag follows the scan. White space leaves the moment of the scan as it is, for
the scan passes over all of it in one step. So does a character of a name or a value: it moves from the
text into a register, and the scan still has to read it.

* `follows_tagName` to `follows_selfClosing`: the states between an opening bracket and its closing one.
-/

namespace MarkupBinding.Scanner

/-- A space is none of the signs of a tag. -/
theorem ne_of_isSpace {c : Char} (h : isSpace c = true) :
    c ≠ '/' ∧ c ≠ '>' ∧ c ≠ '=' ∧ c ≠ Text.doubleMark ∧ c ≠ Text.singleMark := by
  simp only [isSpace, Bool.or_eq_true, decide_eq_true_eq] at h
  rcases h with (((rfl | rfl) | rfl) | rfl) | rfl <;> decide

/-- A run that goes on up to a character. -/
theorem span_append {stop : Char → Bool} {front : Text} {c : Char}
    (hfront : ∀ d ∈ front, stop d = false) (hc : stop c = true) (rest : Text) :
    (front ++ c :: rest).takeWhile (!stop ·) = front ∧
      (front ++ c :: rest).dropWhile (!stop ·) = c :: rest := by
  have hall : ∀ d ∈ front, (!stop d) = true := fun d hd => by rw [hfront d hd]; rfl
  rw [List.takeWhile_append_of_pos hall, List.dropWhile_append_of_pos hall,
    List.takeWhile_cons_of_neg (by simp [hc]), List.dropWhile_cons_of_neg (by simp [hc]),
    List.append_nil]
  exact ⟨rfl, rfl⟩

/-- A run that goes on up to the end of the text. -/
theorem dropWhile_eq_nil {stop : Char → Bool} {front : Text} (hfront : ∀ d ∈ front, stop d = false) :
    front.dropWhile (!stop ·) = [] :=
  List.dropWhile_eq_nil_iff.2 fun d hd => by rw [hfront d hd]; rfl

/-! ## Steps that end a run

A cursor looks for white space first and the scan looks for it last. -/

namespace Config

variable {sections : Bool} {draft : Draft} {name value : Text} {c : Char}

theorem step_tagName (draft : Draft) (hattrs : draft.attrs = [])
    (hname : ∀ d ∈ draft.name, endsName d = false) (hc : endsName c = true) (pending rest : Text) :
    step sections ⟨.tagName draft.side, pending, draft.name ++ c :: rest⟩ =
      if isSpace c then .advance [] ⟨.beforeAttribute draft, pending, rest⟩
      else if c = '/' then .advance [] ⟨.selfClosing draft, pending, rest⟩
      else emitTag ⟨.tagName draft.side, pending, draft.name ++ c :: rest⟩ draft rest := by
  obtain ⟨htake, hdrop⟩ := span_append hname hc rest
  have hdraft : ({ side := draft.side, name := draft.name } : Draft) = draft := by rw [← hattrs]
  simp only [step, stepTagName, htake, hdrop, hdraft]
  cases hspace : isSpace c with
  | true => simp [ne_of_isSpace hspace, enter]
  | false =>
    by_cases hslash : c = '/'
    · simp [hslash, enter]
    · have hclose : c = '>' := by simpa [endsName, hspace, hslash] using hc
      simp [hclose]

theorem step_attributeName {first : Char} {more : Text} (hname : name = first :: more)
    (hvalue : value = []) (hmore : ∀ d ∈ more, endsAttributeName d = false)
    (hc : endsAttributeName c = true) (pending rest : Text) :
    step sections ⟨.attributeName draft, pending, name ++ c :: rest⟩ =
      if isSpace c then .advance [] ⟨.afterAttributeName draft name, pending, rest⟩
      else if c = '/' then .advance [] ⟨.selfClosing (draft.add name value), pending, rest⟩
      else if c = '=' then .advance [] ⟨.beforeValue draft name, pending, rest⟩
      else
        emitTag ⟨.attributeName draft, pending, name ++ c :: rest⟩ (draft.add name value) rest := by
  subst hname hvalue
  obtain ⟨htake, hdrop⟩ := span_append hmore hc rest
  simp only [List.cons_append, step, stepAttributeName, htake, hdrop]
  cases hspace : isSpace c with
  | true => simp [ne_of_isSpace hspace, enter]
  | false =>
    by_cases hslash : c = '/'
    · simp [hslash, enter]
    · by_cases hequals : c = '='
      · simp [hequals, enter]
      · have hclose : c = '>' := by
          simpa [endsAttributeName, endsName, hspace, hslash, hequals] using hc
        simp [hclose]

theorem step_beforeValue (hvalue : value = []) (hc : ¬ isSpace c = true) (pending rest : Text) :
    step sections ⟨.beforeValue draft name, pending, c :: rest⟩ =
      if c = Text.doubleMark then
        .advance [] ⟨.quotedValue draft name Text.doubleMark, pending, value ++ rest⟩
      else if c = Text.singleMark then
        .advance [] ⟨.quotedValue draft name Text.singleMark, pending, value ++ rest⟩
      else if c = '>' then
        emitTag ⟨.beforeValue draft name, pending, c :: rest⟩ (draft.add name value) rest
      else .advance [] ⟨.bareValue draft name, pending, value ++ c :: rest⟩ := by
  subst hvalue
  simp only [step, stepBeforeValue, List.dropWhile_cons_of_neg hc, List.nil_append]
  by_cases hdouble : c = Text.doubleMark
  · simp [hdouble, enter]
  · by_cases hsingle : c = Text.singleMark
    · simp [hsingle, enter]
    · simp [hdouble, hsingle, enter]

theorem step_quotedValue {mark : Char} (hvalue : mark ∉ value) (pending rest : Text) :
    step sections ⟨.quotedValue draft name mark, pending, value ++ mark :: rest⟩ =
      .advance [] ⟨.beforeAttribute (draft.add name value), pending, rest⟩ := by
  have hall : ∀ d ∈ value, decide (d ≠ mark) = true :=
    fun d hd => decide_eq_true fun heq => hvalue (heq ▸ hd)
  simp only [step, stepQuotedValue, List.takeWhile_append_of_pos hall,
    List.dropWhile_append_of_pos hall]
  simp [enter]

theorem step_bareValue (hvalue : ∀ d ∈ value, endsBareValue d = false) (hc : endsBareValue c = true)
    (pending rest : Text) :
    step sections ⟨.bareValue draft name, pending, value ++ c :: rest⟩ =
      if isSpace c then .advance [] ⟨.beforeAttribute (draft.add name value), pending, rest⟩
      else
        emitTag ⟨.bareValue draft name, pending, value ++ c :: rest⟩ (draft.add name value) rest := by
  obtain ⟨htake, hdrop⟩ := span_append hvalue hc rest
  simp only [step, stepBareValue, htake, hdrop]
  cases hspace : isSpace c with
  | true => simp [ne_of_isSpace hspace, enter]
  | false =>
    have hclose : c = '>' := by simpa [endsBareValue, hspace] using hc
    simp [hclose]

end Config

namespace Cursor

variable {gait : Gait} {sections : Bool} {text : Text} {m next : Cursor} {state : State}

/-! ## Runs -/

/-- A run that a cursor leaps over. -/
structure Runs (m : Cursor) (stop : Char → Bool) (run : Text) : Prop where
  ne_nil : run ≠ []
  stops : ∀ c ∈ run, stop c = false
  free : m.held = false
  skips : ∃ rest, m.Skips run rest

theorem runs_of_run? {stop : Char → Bool} {run : Text} (h : Placed m.text m.position m.held m.current)
    (hrun : m.run? gait stop = some run) : m.Runs stop run := by
  unfold run? at hrun
  obtain ⟨hleaps, hrun⟩ := Option.ite_none_right_eq_some.1 hrun
  obtain rfl := Option.some_inj.1 hrun
  simp only [Bool.and_eq_true, Bool.not_eq_true', decide_eq_true_eq] at hleaps
  obtain ⟨⟨_, hfree⟩, hne⟩ := hleaps
  obtain ⟨rest, hrest⟩ := List.takeWhile_prefix (l := m.ahead) (!stop ·)
  exact ⟨hne, fun c hc => by simpa using List.mem_takeWhile_imp hc, hfree, rest,
    skips_of_ahead h hfree hrest.symm⟩

theorem Runs.unread {stop : Char → Bool} {run : Text} (h : m.Runs stop run) :
    m.unread = run ++ (m.skip run).unread := by
  obtain ⟨rest, hskips⟩ := h.skips
  rw [hskips.skipped, hskips.unread]

theorem Runs.placed {stop : Char → Bool} {run : Text} (h : m.Runs stop run) :
    Placed m.text (m.position + run.length) m.held m.current := by
  obtain ⟨rest, hskips⟩ := h.skips
  exact hskips.placed

theorem Runs.measure_lt {stop : Char → Bool} {run : Text} (h : m.Runs stop run) {state' : State}
    (hnext : next.unread = (m.skip run).unread) : next.measure state' < m.measure state := by
  obtain ⟨rest, hskips⟩ := h.skips
  exact measure_lt_of_length_lt (hnext ▸ hskips.length_lt h.ne_nil)

/-! ## Attributes and tags that are finished -/

/-- Without an attribute there is nothing to finish. -/
theorem draft_finishAttribute_of_nil (h : next.attributeName = []) :
    next.finishAttribute.draft = next.draft := by
  unfold finishAttribute
  rw [if_pos h]
  rfl

/-- The attribute that is finished is one more of the tag. -/
theorem finishAttribute_of_ne_nil (h : next.attributeName ≠ []) :
    next.finishAttribute =
      { next with
        attrs := (next.draft.add next.attributeName next.attributeValue).attrs
        attributeName := []
        attributeValue := [] } :=
  if_neg h

theorem draft_finishAttribute_of_ne_nil (h : next.attributeName ≠ []) :
    next.finishAttribute.draft = next.draft.add next.attributeName next.attributeValue := by
  rw [finishAttribute_of_ne_nil h]
  rfl

/-- Nothing but the registers of the tag changes where an attribute is finished. -/
theorem finishAttribute_eq (next : Cursor) : ∃ attrs, next.finishAttribute =
    { next with attrs, attributeName := [], attributeValue := [] } := by
  unfold finishAttribute
  split
  · next hname => exact ⟨next.attrs, by rw [← hname]⟩
  · exact ⟨_, rfl⟩

/-- The closing bracket of a tag gives it out. -/
theorem follows_emitTag {moment : Config} {draft : Draft}
    (htext : next.text = text) (hplaced : Placed next.text next.position false next.current)
    (hheld : next.held = false) (hpending : moment.pending = next.pending)
    (hdraft : next.finishAttribute.draft = draft)
    (hlt : next.unread.length < m.unread.length)
    (hstep : moment.step sections = moment.emitTag draft next.unread) :
    next.emitTag.Follows gait sections text (m.measure state) moment := by
  obtain ⟨attrs, hfinish⟩ := finishAttribute_eq next
  subst hdraft
  unfold emitTag
  rw [hfinish] at hstep ⊢
  replace hstep : moment.step sections =
      .advance (flush next.pending ++ [(⟨next.side, next.name, attrs⟩ : Draft).token])
        ⟨Config.modeAfter ⟨next.side, next.name, attrs⟩, [], next.unread⟩ := by
    rw [hstep, ← hpending]
    rfl
  -- The name decides in which state the cursor goes on, and with it whether raw text has a name.
  cases hraw : decide (next.side = .opening) && Element.isRawText next.name with
  | true =>
    have hmode : Config.modeAfter ⟨next.side, next.name, attrs⟩ = .rawText next.name := if_pos hraw
    rw [hmode] at hstep
    exact ⟨.rawText, by simp [hraw], ⟨htext, hheld ▸ hplaced, elim_held hheld, by simp [Fits, hraw]⟩,
      measure_lt_of_length_lt hlt, Config.run_of_advance (by rw [hstep, if_pos hraw]; rfl)⟩
  | false =>
    have hmode : Config.modeAfter ⟨next.side, next.name, attrs⟩ = .data :=
      if_neg (Bool.not_eq_true _ ▸ hraw)
    rw [hmode] at hstep
    exact ⟨.data, by simp [hraw], ⟨htext, hheld ▸ hplaced, elim_held hheld, trivial⟩,
      measure_lt_of_length_lt hlt, Config.run_of_advance hstep⟩

/-! ## The states of a tag -/

theorem follows_tagName (h : m.Sound gait text .tagName) :
    m.passTagName.Follows gait sections text (m.measure .tagName) (m.config .tagName) := by
  obtain ⟨hname, hends, hattrs, hattribute, hvalue⟩ := h.fits
  unfold passTagName
  rcases read_cases h.placed with ⟨hnil, hread⟩ | ⟨c, p, hread⟩
  · rw [hread]
    refine follows_close rfl ?_
    simp only [config, hnil, Config.step, Config.stepTagName, List.append_nil, dropWhile_eq_nil hends]
  · rw [hread.read]
    cases hc : endsName c with
    | true =>
      have hmoment : m.config .tagName =
          ⟨.tagName m.side, m.pending, m.name ++ c :: m.text.drop p⟩ := by
        simp only [config, hread.unread]
      rw [hmoment]
      refine follows_ite (Config.step_tagName m.draft hattrs hends hc _ _) (fun _ hstep => ?_)
        fun hspace hstep => follows_ite hstep (fun _ hstep => ?_) fun hslash hstep => ?_
      · exact follows_step ⟨h.text, hread.free, not_held, hname, hattribute, hvalue⟩
          (hread.measure_lt rfl) hstep
      · exact follows_step ⟨h.text, hread.free, not_held, hname, hattribute, hvalue⟩
          (hread.measure_lt rfl) hstep
      · have hclose : c = '>' := by simpa [endsName, hspace, hslash] using hc
        rw [if_pos hclose]
        exact follows_emitTag h.text hread.free rfl rfl (draft_finishAttribute_of_nil hattribute)
          hread.length_lt hstep
    | false =>
      -- The character goes on with the name, and the scan has not moved yet.
      have hnot := hc
      simp only [endsName, Bool.or_eq_false_iff, decide_eq_false_iff_not] at hnot
      obtain ⟨⟨hspace, hslash⟩, hclose⟩ := hnot
      simp only [hspace, if_neg hslash, if_neg hclose]
      refine follows_stay ⟨h.text, hread.free, not_held, by simp, ?_, hattrs, hattribute, hvalue⟩
        (hread.measure_lt rfl) ?_
      · exact List.forall_mem_append.2 ⟨hends, List.forall_mem_singleton.2 hc⟩
      · simp only [config, hread.unread, List.append_assoc]
        rfl

theorem follows_beforeAttribute (h : m.Sound gait text .beforeAttribute) :
    m.passBeforeAttribute.Follows gait sections text (m.measure .beforeAttribute)
      (m.config .beforeAttribute) := by
  obtain ⟨hname, hattribute, hvalue⟩ := h.fits
  unfold passBeforeAttribute
  rcases read_cases h.placed with ⟨hnil, hread⟩ | ⟨c, p, hread⟩
  · rw [hread]
    refine follows_close rfl ?_
    simp only [config, hnil]
    rfl
  · rw [hread.read]
    by_cases hspace : isSpace c = true
    · simp only [if_pos hspace]
      refine follows_stay ⟨h.text, hread.free, not_held, hname, hattribute, hvalue⟩
        (hread.measure_lt rfl) (Config.run_congr ?_)
      simp only [config, hread.unread, Config.step, Config.stepBeforeAttribute,
        List.dropWhile_cons_of_pos hspace]
      rfl
    · simp only [if_neg hspace]
      have hstep : Config.step sections (m.config .beforeAttribute) =
          if c = '/' then .advance [] ⟨.selfClosing m.draft, m.pending, m.text.drop p⟩
          else if c = '>' then Config.emitTag (m.config .beforeAttribute) m.draft (m.text.drop p)
          else .advance [] ⟨.attributeName m.draft, m.pending, c :: m.text.drop p⟩ := by
        simp only [config, hread.unread, Config.step, Config.stepBeforeAttribute,
          List.dropWhile_cons_of_neg hspace]
        rfl
      refine follows_ite hstep (fun _ hstep => ?_) fun _ hstep => follows_ite hstep
        (fun _ hstep => ?_) fun _ hstep => ?_
      · exact follows_step ⟨h.text, hread.free, not_held, hname, hattribute, hvalue⟩
          (hread.measure_lt rfl) hstep
      · exact follows_emitTag h.text hread.free rfl rfl (draft_finishAttribute_of_nil hattribute)
          hread.length_lt hstep
      · exact follows_step ⟨h.text, hread.free, not_held, hname, ⟨c, [], rfl, List.forall_mem_nil _⟩, rfl⟩
          (hread.measure_lt rfl) hstep

theorem follows_attributeName (h : m.Sound gait text .attributeName) :
    (m.passAttributeName gait).Follows gait sections text (m.measure .attributeName)
      (m.config .attributeName) := by
  obtain ⟨hname, ⟨first, more, hattribute, hmore⟩, hvalue⟩ := h.fits
  have hne : m.attributeName ≠ [] := by rw [hattribute]; exact List.cons_ne_nil _ _
  unfold passAttributeName
  cases hrun : m.run? gait endsAttributeName with
  | some run =>
    have hruns := runs_of_run? h.placed hrun
    refine follows_stay ⟨h.text, hruns.placed, elim_held hruns.free,
      hname, ⟨first, more ++ run, ?_, ?_⟩, hvalue⟩ (hruns.measure_lt rfl) ?_
    · simp only [hattribute, List.cons_append]
    · exact List.forall_mem_append.2 ⟨hmore, hruns.stops⟩
    · simp only [config, hruns.unread, ← List.append_assoc]
      rfl
  | none =>
    rcases read_cases h.placed with ⟨hnil, hread⟩ | ⟨c, p, hread⟩
    · simp only [hread]
      refine follows_close rfl ?_
      simp only [config, hnil, hattribute, Config.step, Config.stepAttributeName, List.append_nil,
        dropWhile_eq_nil hmore]
    · simp only [hread.read]
      cases hc : endsAttributeName c with
      | true =>
        have hmoment : m.config .attributeName =
            ⟨.attributeName m.draft, m.pending, m.attributeName ++ c :: m.text.drop p⟩ := by
          simp only [config, hread.unread]
        rw [hmoment]
        refine follows_ite (Config.step_attributeName hattribute hvalue hmore hc _ _)
          (fun _ hstep => ?_) fun hspace hstep => follows_ite hstep (fun _ hstep => ?_)
            fun hslash hstep => follows_ite hstep (fun _ hstep => ?_) fun hequals hstep => ?_
        · exact follows_step ⟨h.text, hread.free, not_held, hname, hne, hvalue⟩
            (hread.measure_lt rfl) hstep
        · rw [finishAttribute_of_ne_nil]
          · exact follows_step ⟨h.text, hread.free, not_held, hname, rfl, rfl⟩ (hread.measure_lt rfl) hstep
          · exact hne
        · exact follows_step ⟨h.text, hread.free, not_held, hname, hne, hvalue⟩
            (hread.measure_lt rfl) hstep
        · have hclose : c = '>' := by
            simpa [endsAttributeName, endsName, hspace, hslash, hequals] using hc
          rw [if_pos hclose]
          exact follows_emitTag h.text hread.free rfl rfl (draft_finishAttribute_of_ne_nil hne)
            hread.length_lt hstep
      | false =>
        have hnot := hc
        simp only [endsAttributeName, endsName, Bool.or_eq_false_iff, decide_eq_false_iff_not] at hnot
        obtain ⟨⟨⟨hspace, hslash⟩, hclose⟩, hequals⟩ := hnot
        simp only [hspace, if_neg hslash, if_neg hclose, if_neg hequals]
        refine follows_stay ⟨h.text, hread.free, not_held, hname, ⟨first, more ++ [c], ?_, ?_⟩, hvalue⟩
          (hread.measure_lt rfl) ?_
        · simp only [hattribute, List.cons_append]
        · exact List.forall_mem_append.2 ⟨hmore, List.forall_mem_singleton.2 hc⟩
        · simp only [config, hread.unread, List.append_assoc]
          rfl

theorem follows_afterAttributeName (h : m.Sound gait text .afterAttributeName) :
    m.passAfterAttributeName.Follows gait sections text (m.measure .afterAttributeName)
      (m.config .afterAttributeName) := by
  obtain ⟨hname, hne, hvalue⟩ := h.fits
  unfold passAfterAttributeName
  rcases read_cases h.placed with ⟨hnil, hread⟩ | ⟨c, p, hread⟩
  · rw [hread]
    refine follows_close rfl ?_
    simp only [config, hnil]
    rfl
  · rw [hread.read]
    by_cases hspace : isSpace c = true
    · simp only [if_pos hspace]
      refine follows_stay ⟨h.text, hread.free, not_held, hname, hne, hvalue⟩ (hread.measure_lt rfl)
        (Config.run_congr ?_)
      simp only [config, hread.unread, Config.step, Config.stepAfterAttributeName,
        List.dropWhile_cons_of_pos hspace]
      rfl
    · simp only [if_neg hspace]
      have hstep : Config.step sections (m.config .afterAttributeName) =
          if c = '/' then
            .advance [] ⟨.selfClosing (m.draft.add m.attributeName m.attributeValue), m.pending,
              m.text.drop p⟩
          else if c = '=' then
            .advance [] ⟨.beforeValue m.draft m.attributeName, m.pending, m.text.drop p⟩
          else if c = '>' then
            Config.emitTag (m.config .afterAttributeName) (m.draft.add m.attributeName m.attributeValue)
              (m.text.drop p)
          else
            .advance [] ⟨.attributeName (m.draft.add m.attributeName m.attributeValue), m.pending,
              c :: m.text.drop p⟩ := by
        simp only [config, hread.unread, hvalue, Config.step, Config.stepAfterAttributeName,
          List.dropWhile_cons_of_neg hspace]
        rfl
      refine follows_ite hstep (fun _ hstep => ?_) fun _ hstep => follows_ite hstep
        (fun _ hstep => ?_) fun _ hstep => follows_ite hstep (fun _ hstep => ?_) fun _ hstep => ?_
      · rw [finishAttribute_of_ne_nil]
        · exact follows_step ⟨h.text, hread.free, not_held, hname, rfl, rfl⟩ (hread.measure_lt rfl) hstep
        · exact hne
      · exact follows_step ⟨h.text, hread.free, not_held, hname, hne, hvalue⟩ (hread.measure_lt rfl) hstep
      · exact follows_emitTag h.text hread.free rfl rfl (draft_finishAttribute_of_ne_nil hne)
          hread.length_lt hstep
      · rw [finishAttribute_of_ne_nil]
        · exact follows_step ⟨h.text, hread.free, not_held, hname, ⟨c, [], rfl, List.forall_mem_nil _⟩, rfl⟩
            (hread.measure_lt rfl) hstep
        · exact hne

theorem follows_beforeValue (h : m.Sound gait text .beforeValue) :
    m.passBeforeValue.Follows gait sections text (m.measure .beforeValue) (m.config .beforeValue) := by
  obtain ⟨hname, hne, hvalue⟩ := h.fits
  -- A value that has not begun fits whatever will end it.
  have hnone : ∀ c, c ∉ m.attributeValue := by
    rw [hvalue]
    exact fun _ => List.not_mem_nil
  unfold passBeforeValue
  rcases read_cases h.placed with ⟨hnil, hread⟩ | ⟨c, p, hread⟩
  · rw [hread]
    refine follows_close rfl ?_
    simp only [config, hnil]
    rfl
  · rw [hread.read]
    by_cases hspace : isSpace c = true
    · simp only [if_pos hspace]
      refine follows_stay ⟨h.text, hread.free, not_held, hname, hne, hvalue⟩ (hread.measure_lt rfl)
        (Config.run_congr ?_)
      simp only [config, hread.unread, Config.step, Config.stepBeforeValue,
        List.dropWhile_cons_of_pos hspace]
      rfl
    · simp only [if_neg hspace]
      have hmoment : m.config .beforeValue =
          ⟨.beforeValue m.draft m.attributeName, m.pending, c :: m.text.drop p⟩ := by
        simp only [config, hread.unread]
      rw [hmoment]
      refine follows_ite (Config.step_beforeValue hvalue hspace _ _) (fun _ hstep => ?_)
        fun _ hstep => follows_ite hstep (fun _ hstep => ?_) fun _ hstep => follows_ite hstep
          (fun _ hstep => ?_) fun _ hstep => ?_
      · exact follows_step ⟨h.text, hread.free, not_held, hname, hne, hnone _⟩
          (hread.measure_lt rfl) hstep
      · exact follows_step ⟨h.text, hread.free, not_held, hname, hne, hnone _⟩
          (hread.measure_lt rfl) hstep
      · exact follows_emitTag h.text hread.free rfl rfl (draft_finishAttribute_of_ne_nil hne)
          hread.length_lt hstep
      · rw [← hread.back] at hstep ⊢
        exact follows_step
          ⟨h.text, hread.held, fun _ => rfl, hname, hne, fun c hc => absurd hc (hnone c)⟩
          (hread.hold_measure_lt rfl (by decide)) hstep

/-- The two states of a value between marks. -/
theorem follows_quotedValue {mark : Char} {state : State}
    (hconfig : ∀ cursor : Cursor, cursor.config state =
      ⟨.quotedValue cursor.draft cursor.attributeName mark, cursor.pending,
        cursor.attributeValue ++ cursor.unread⟩)
    (hfits : ∀ cursor : Cursor, cursor.Fits gait state ↔
      cursor.name ≠ [] ∧ cursor.attributeName ≠ [] ∧ mark ∉ cursor.attributeValue)
    (h : m.Sound gait text state) :
    (m.passQuotedValue gait mark state).Follows gait sections text (m.measure state)
      (m.config state) := by
  obtain ⟨hname, hne, hvalue⟩ := (hfits m).1 h.fits
  have hall : ∀ d ∈ m.attributeValue, decide (d ≠ mark) = true :=
    fun d hd => decide_eq_true fun heq => hvalue (heq ▸ hd)
  unfold passQuotedValue
  cases hrun : m.run? gait (· = mark) with
  | some run =>
    have hruns := runs_of_run? h.placed hrun
    refine follows_stay ⟨h.text, hruns.placed, elim_held hruns.free,
      (hfits _).2 ⟨hname, hne, ?_⟩⟩ (hruns.measure_lt rfl) ?_
    · refine List.mem_append.not.2 (not_or.2 ⟨hvalue, fun hmem => ?_⟩)
      exact of_decide_eq_false (hruns.stops mark hmem) rfl
    · simp only [hconfig, hruns.unread, ← List.append_assoc]
      rfl
  | none =>
    rcases read_cases h.placed with ⟨hnil, hread⟩ | ⟨c, p, hread⟩
    · simp only [hread]
      refine follows_close (by rw [hconfig]) ?_
      simp only [hconfig, hnil, Config.step, Config.stepQuotedValue, List.append_nil,
        List.dropWhile_eq_nil_iff.2 hall]
    · simp only [hread.read]
      by_cases hc : c = mark
      · subst hc
        rw [if_pos rfl, finishAttribute_of_ne_nil]
        · refine follows_step ⟨h.text, hread.free, not_held, hname, rfl, rfl⟩ (hread.measure_lt rfl) ?_
          simp only [hconfig, hread.unread, Config.step_quotedValue hvalue]
          rfl
        · exact hne
      · simp only [if_neg hc]
        refine follows_stay ⟨h.text, hread.free, not_held, (hfits _).2 ⟨hname, hne, ?_⟩⟩
          (hread.measure_lt rfl) ?_
        · refine List.mem_append.not.2 (not_or.2 ⟨hvalue, fun hmem => ?_⟩)
          exact hc (List.mem_singleton.1 hmem).symm
        · simp only [hconfig, hread.unread, List.append_assoc]
          rfl

theorem follows_bareValue (h : m.Sound gait text .bareValue) :
    (m.passBareValue gait).Follows gait sections text (m.measure .bareValue) (m.config .bareValue) := by
  obtain ⟨hname, hne, hvalue⟩ := h.fits
  unfold passBareValue
  cases hrun : m.run? gait endsBareValue with
  | some run =>
    have hruns := runs_of_run? h.placed hrun
    refine follows_stay ⟨h.text, hruns.placed, elim_held hruns.free,
      hname, hne, List.forall_mem_append.2 ⟨hvalue, hruns.stops⟩⟩
      (hruns.measure_lt rfl) ?_
    simp only [config, hruns.unread, ← List.append_assoc]
    rfl
  | none =>
    rcases read_cases h.placed with ⟨hnil, hread⟩ | ⟨c, p, hread⟩
    · simp only [hread]
      refine follows_close rfl ?_
      simp only [config, hnil, Config.step, Config.stepBareValue, List.append_nil,
        dropWhile_eq_nil hvalue]
    · simp only [hread.read]
      cases hc : endsBareValue c with
      | true =>
        have hmoment : m.config .bareValue =
            ⟨.bareValue m.draft m.attributeName, m.pending,
              m.attributeValue ++ c :: m.text.drop p⟩ := by
          simp only [config, hread.unread]
        rw [hmoment]
        refine follows_ite (Config.step_bareValue hvalue hc _ _) (fun _ hstep => ?_)
          fun hspace hstep => ?_
        · rw [finishAttribute_of_ne_nil]
          · exact follows_step ⟨h.text, hread.free, not_held, hname, rfl, rfl⟩ (hread.measure_lt rfl) hstep
          · exact hne
        · have hclose : c = '>' := by simpa [endsBareValue, hspace] using hc
          rw [if_pos hclose]
          exact follows_emitTag h.text hread.free rfl rfl (draft_finishAttribute_of_ne_nil hne)
            hread.length_lt hstep
      | false =>
        have hnot := hc
        simp only [endsBareValue, Bool.or_eq_false_iff, decide_eq_false_iff_not] at hnot
        simp only [hnot.1, if_neg hnot.2]
        refine follows_stay ⟨h.text, hread.free, not_held, hname, hne, ?_⟩ (hread.measure_lt rfl) ?_
        · exact List.forall_mem_append.2 ⟨hvalue, List.forall_mem_singleton.2 hc⟩
        · simp only [config, hread.unread, List.append_assoc]
          rfl

theorem follows_selfClosing (h : m.Sound gait text .selfClosing) :
    m.passSelfClosing.Follows gait sections text (m.measure .selfClosing) (m.config .selfClosing) := by
  obtain ⟨hname, hattribute, hvalue⟩ := h.fits
  unfold passSelfClosing
  rcases read_cases h.placed with ⟨hnil, hread⟩ | ⟨c, p, hread⟩
  · rw [hread]
    refine follows_close rfl ?_
    simp only [config, hnil]
    rfl
  · have hstep : Config.step sections (m.config .selfClosing) =
        if c = '>' then Config.emitTag (m.config .selfClosing) m.draft (m.text.drop p)
        else .advance [] ⟨.beforeAttribute m.draft, m.pending, c :: m.text.drop p⟩ := by
      simp only [config, hread.unread]
      rfl
    rw [hread.read]
    refine follows_ite hstep (fun _ hstep => ?_) fun _ hstep => ?_
    · exact follows_emitTag h.text hread.free rfl rfl (draft_finishAttribute_of_nil hattribute)
        hread.length_lt hstep
    · rw [← hread.back] at hstep
      exact follows_step ⟨h.text, hread.held, fun _ => rfl, hname, hattribute, hvalue⟩
        (hread.hold_measure_lt rfl (by decide)) hstep

end Cursor
end MarkupBinding.Scanner
