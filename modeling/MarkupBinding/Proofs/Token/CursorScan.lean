import MarkupBinding.Proofs.Token.CursorTag

/-!
# Every pass of a cursor follows the scan

The states outside of tags, and then all of them. What is read there reaches up to a mark. A leaping
cursor cuts the text at the mark, and a walking one has come past every place where it does not begin,
so that it finds the same one.

* `follows_leapTo`: data up to a mark, at once.
* `step_of_front`, `step_of_nil`: data up to a mark, once they are read.
* `follows_pass`: a pass in any state.
-/

namespace MarkupBinding.Scanner
namespace Cursor

variable {gait : Gait} {sections : Bool} {text : Text} {m next : Cursor} {state : State}

/-! ## Character data -/

theorem follows_leapData {limit : Nat} (htext : m.text = text)
    (h : Placed m.text m.position m.held m.current) (hfree : m.held = false)
    (hlimit : m.measure .data ≤ limit) :
    m.leapData.Follows gait sections text limit (m.config .data) := by
  unfold leapData
  split
  · next before after hcut =>
    have hbefore : '<' ∉ before := fun hmem =>
      Text.not_infix_of_cut? (by decide) hcut ((List.singleton_infix_iff _ _).2 hmem)
    have hskips := skips_of_ahead h hfree (Text.eq_append_of_cut? hcut)
    have hlt := hskips.length_lt (by simp)
    refine follows_stay ⟨htext, hskips.placed, elim_held hfree, trivial⟩
      ((measure_lt_of_length_lt hlt).trans_le hlimit) ?_
    simp only [config, hskips.unread, List.append_assoc]
    rw [Config.run_text hbefore, List.singleton_append, Config.run_bracket]
    exact congrArg (fun rest => Config.run sections ⟨.tagOpen, _, rest⟩) hskips.skipped.symm
  · next hcut =>
    have hahead : '<' ∉ m.ahead := fun hmem =>
      Text.not_infix_of_cut?_eq_none hcut ((List.singleton_infix_iff _ _).2 hmem)
    have hrun : Config.run sections ⟨.data, m.pending, m.ahead ++ []⟩ =
        Config.run sections ⟨.data, m.pending ++ m.ahead, []⟩ := Config.run_text hahead m.pending []
    rw [List.append_nil, Config.run_data_nil] at hrun
    rw [← unread_of_free hfree] at hrun ⊢
    exact hrun

theorem follows_data (h : m.Sound gait text .data) :
    (m.passData gait).Follows gait sections text (m.measure .data) (m.config .data) := by
  have hbracket : ∀ {p : Nat}, m.Reads '<' p → (m.config .data).run sections =
      Config.run sections ⟨.tagOpen, m.pending, m.text.drop p⟩ := by
    intro p hread
    simp only [config, hread.unread]
    exact Config.run_bracket m.pending (m.text.drop p)
  have hchar : ∀ {c : Char} {p : Nat}, m.Reads c p → c ≠ '<' → (m.config .data).run sections =
      Config.run sections ⟨.data, m.pending ++ [c], m.text.drop p⟩ := by
    intro c p hread hc
    simp only [config, hread.unread]
    exact Config.run_text (List.mem_singleton.not.2 (Ne.symm hc)) m.pending (m.text.drop p)
  cases gait with
  | leaping =>
    cases hheld : m.held with
    | true =>
      obtain ⟨_, c, hcurrent, _⟩ := h.placed.back hheld
      -- Reading would give out what is held back and leave the position as it is.
      have hread : m.Reads c m.position := by
        rcases read_cases h.placed with ⟨_, hread⟩ | ⟨d, p, hread⟩
        · simp [read, hheld, hcurrent] at hread
        · have hsame := hread.read
          rw [read, if_pos hheld, hcurrent] at hsame
          obtain ⟨hcurrent, hcursor⟩ := Prod.mk.inj hsame
          obtain rfl := Option.some_inj.1 hcurrent
          obtain rfl : m.position = p := congrArg Cursor.position hcursor
          exact hread
      simp only [passData, hheld, if_true, hcurrent]
      by_cases hc : c = '<'
      · subst hc
        rw [if_pos rfl]
        exact follows_stay ⟨h.text, hread.free, not_held, trivial⟩ (hread.measure_lt rfl) (hbracket hread)
      · rw [if_neg hc]
        exact follows_congr (hchar hread hc)
          (follows_leapData h.text hread.free rfl (Nat.le_of_lt (hread.measure_lt rfl)))
    | false =>
      simp only [passData, hheld]
      exact follows_leapData h.text h.placed hheld le_rfl
  | walking =>
    unfold passData
    rcases read_cases h.placed with ⟨hnil, hread⟩ | ⟨c, p, hread⟩
    · simp only [hread, config, hnil]
      exact Config.run_data_nil m.pending
    · simp only [hread.read]
      by_cases hc : c = '<'
      · subst hc
        rw [if_pos rfl]
        exact follows_stay ⟨h.text, hread.free, not_held, trivial⟩ (hread.measure_lt rfl) (hbracket hread)
      · rw [if_neg hc]
        exact follows_stay ⟨h.text, hread.free, not_held, trivial⟩ (hread.measure_lt rfl) (hchar hread hc)

theorem follows_tagOpen (h : m.Sound gait text .tagOpen) :
    m.passTagOpen.Follows gait sections text (m.measure .tagOpen) (m.config .tagOpen) := by
  unfold passTagOpen
  rcases read_cases h.placed with ⟨hnil, hread⟩ | ⟨c, p, hread⟩
  · rw [hread]
    refine Config.run_of_finish ?_
    simp only [config, hnil]
    rfl
  · have hstep : Config.step sections (m.config .tagOpen) =
        if c = '!' then .advance [] ⟨.declarationOpen, m.pending, m.text.drop p⟩
        else if c = '/' then .advance [] ⟨.endTagOpen, m.pending, m.text.drop p⟩
        else if c = '?' then .advance [] ⟨.instruction, m.pending, m.text.drop p⟩
        else if Text.isLetter c then .advance [] ⟨.tagName .opening, m.pending, c :: m.text.drop p⟩
        else .advance [] ⟨.data, m.pending ++ ['<'], c :: m.text.drop p⟩ := by
      simp only [config, hread.unread]
      rfl
    rw [hread.read]
    refine follows_ite hstep (fun _ hstep => ?_) fun _ hstep => follows_ite hstep (fun _ hstep => ?_)
      fun _ hstep => follows_ite hstep (fun _ hstep => ?_) fun _ hstep => follows_ite hstep
        (fun hletter hstep => ?_) fun _ hstep => ?_
    · exact follows_step ⟨h.text, hread.free, not_held, trivial⟩ (hread.measure_lt rfl) hstep
    · exact follows_step ⟨h.text, hread.free, not_held, trivial⟩ (hread.measure_lt rfl) hstep
    · exact follows_step ⟨h.text, hread.free, not_held, fun _ => rfl, .nil _ _⟩ (hread.measure_lt rfl)
        hstep
    · exact follows_step ⟨h.text, hread.free, not_held, List.cons_ne_nil _ _,
        List.forall_mem_singleton.2 (endsName_of_isLetter hletter), rfl, rfl, rfl⟩
        (hread.measure_lt rfl) hstep
    · rw [← hread.back] at hstep
      exact follows_step ⟨h.text, hread.held, fun _ => rfl, trivial⟩
        (hread.hold_measure_lt rfl (by decide)) hstep

theorem follows_endTagOpen (h : m.Sound gait text .endTagOpen) :
    m.passEndTagOpen.Follows gait sections text (m.measure .endTagOpen) (m.config .endTagOpen) := by
  unfold passEndTagOpen
  rcases read_cases h.placed with ⟨hnil, hread⟩ | ⟨c, p, hread⟩
  · rw [hread]
    refine Config.run_of_finish ?_
    simp only [config, hnil]
    rfl
  · have hstep : Config.step sections (m.config .endTagOpen) =
        if Text.isLetter c then .advance [] ⟨.tagName .closing, m.pending, c :: m.text.drop p⟩
        else if c = '>' then .advance [] ⟨.data, m.pending, m.text.drop p⟩
        else .advance [] ⟨.bogusComment, m.pending, c :: m.text.drop p⟩ := by
      simp only [config, hread.unread]
      rfl
    rw [hread.read]
    refine follows_ite hstep (fun hletter hstep => ?_) fun _ hstep => follows_ite hstep
      (fun _ hstep => ?_) fun _ hstep => ?_
    · exact follows_step ⟨h.text, hread.free, not_held, List.cons_ne_nil _ _,
        List.forall_mem_singleton.2 (endsName_of_isLetter hletter), rfl, rfl, rfl⟩
        (hread.measure_lt rfl) hstep
    · exact follows_step ⟨h.text, hread.free, not_held, trivial⟩ (hread.measure_lt rfl) hstep
    · rw [← hread.back] at hstep
      exact follows_step ⟨h.text, hread.held, fun _ => rfl, fun _ => rfl, .nil _ _⟩
        (hread.hold_measure_lt rfl (by decide)) hstep

/-! ## Comments and directives -/

/-- The scan gives out what has been read where the mark stands ahead. -/
theorem step_of_front {mark sign content unread rest : Text} {kind : DataKind} {moment : Config}
    (hpasses : Passes mark content unread) (hunread : unread = mark ++ rest)
    (hrest : moment.rest = content ++ unread)
    (hstep : moment.step sections = moment.stepData mark kind sign) :
    moment.step sections = moment.emit (.data kind (sign ++ content)) rest := by
  rw [hstep, Config.stepData, hrest, hpasses.cut?_of_front hunread]

/-- So it does at the end of the text. -/
theorem step_of_nil {mark sign content : Text} {kind : DataKind} {moment : Config}
    (hmark : mark ≠ []) (hpasses : Passes mark content []) (hrest : moment.rest = content)
    (hstep : moment.step sections = moment.stepData mark kind sign) :
    moment.step sections =
      .finish (flush moment.pending ++ [.data kind (sign ++ content), .endOfInput]) := by
  rw [hstep, Config.stepData, hrest, hpasses.cut?_of_nil hmark]

theorem follows_leapTo {limit : Nat} {mark sign : Text} {kind : DataKind} {moment : Config}
    (hmark : mark ≠ []) (htext : m.text = text) (h : Placed m.text m.position m.held m.current)
    (hfree : m.held = false) (hlimit : m.measure .data ≤ limit)
    (hpending : moment.pending = m.pending) (hrest : moment.rest = m.unread)
    (hstep : moment.step sections = moment.stepData mark kind sign) :
    (m.leapTo mark kind sign).Follows gait sections text limit moment := by
  rw [Config.stepData, hrest, unread_of_free hfree] at hstep
  unfold leapTo
  cases hcut : Text.cut? mark m.ahead with
  | some found =>
    obtain ⟨content, rest⟩ := found
    rw [hcut] at hstep
    have hskips := skips_of_ahead h hfree (Text.eq_append_of_cut? hcut)
    have hlt := hskips.length_lt (List.append_ne_nil_of_right_ne_nil _ hmark)
    refine follows_emit htext hskips.placed hpending ((measure_lt_of_length_lt hlt).trans_le hlimit) ?_
    exact hstep.trans (congrArg (moment.emit _) hskips.skipped.symm)
  | none =>
    rw [hcut] at hstep
    exact follows_emitLast hpending hstep

theorem follows_comment (h : m.Sound gait text .comment) :
    (m.passComment gait).Follows gait sections text (m.measure .comment) (m.config .comment) := by
  have hfree := h.free rfl
  obtain ⟨hcontent, hpasses⟩ := h.fits
  cases gait with
  | leaping =>
    refine follows_leapTo (by decide) h.text h.placed hfree le_rfl rfl ?_ rfl
    simp only [config, hcontent rfl, List.nil_append]
  | walking =>
    simp only [passComment]
    by_cases hend : "-->".toList <+: m.ahead
    · obtain ⟨rest, hrest⟩ := hend
      have hskips := skips_of_ahead h.placed hfree hrest.symm
      have hlt := hskips.length_lt (by decide)
      have hstep : Config.step sections (m.config .comment) =
          Config.emit (m.config .comment) (.data .comment ([] ++ m.content)) rest :=
        step_of_front hpasses hskips.unread rfl rfl
      rw [if_pos ⟨rest, hrest⟩]
      refine follows_emit h.text hskips.placed rfl (measure_lt_of_length_lt hlt) ?_
      exact hstep.trans (congrArg (Config.emit _ _) hskips.skipped.symm)
    · rw [if_neg hend]
      rcases read_cases h.placed with ⟨hnil, hread⟩ | ⟨c, p, hread⟩
      · simp only [hread]
        rw [hnil] at hpasses
        have hrest : (m.config .comment).rest = m.content := by
          simp only [config, hnil, List.append_nil]
        have hstep : Config.step sections (m.config .comment) =
            .finish (flush m.pending ++ [.data .comment ([] ++ m.content), .endOfInput]) :=
          step_of_nil (by decide) hpasses hrest rfl
        exact follows_emitLast rfl hstep
      · simp only [hread.read]
        rw [← unread_of_free hfree, hread.unread] at hend
        rw [hread.unread] at hpasses
        refine follows_stay ⟨h.text, hread.free, not_held, (absurd · (by decide)), hpasses.concat hend⟩
          (hread.measure_lt rfl) ?_
        simp only [config, hread.unread, List.append_assoc]
        rfl

/-- The three states that end at the closing bracket. -/
theorem follows_directive {mode : Mode} {kind : DataKind} {sign : Text} {state : State}
    (hconfig : ∀ cursor : Cursor,
      cursor.config state = ⟨mode, cursor.pending, cursor.content ++ cursor.unread⟩)
    (hstep : ∀ pending rest, Config.step sections ⟨mode, pending, rest⟩ =
      Config.stepData ⟨mode, pending, rest⟩ ['>'] kind sign)
    (hfits : ∀ cursor : Cursor, cursor.Fits gait state ↔
      (gait = .leaping → cursor.content = []) ∧ Passes ['>'] cursor.content cursor.unread)
    (h : m.Sound gait text state) :
    (m.passDirective gait kind sign state).Follows gait sections text (m.measure state)
      (m.config state) := by
  obtain ⟨hcontent, hpasses⟩ := (hfits m).1 h.fits
  have hlimit : ∀ {cursor : Cursor}, cursor.unread = m.unread →
      cursor.measure .data ≤ m.measure state := by
    intro cursor hcursor
    unfold measure
    rw [hcursor]
    exact Nat.add_le_add_left (Nat.zero_le _) _
  have hmark : ['>'] ≠ [] := List.cons_ne_nil _ _
  rw [hconfig]
  cases gait with
  | leaping =>
    rw [hcontent rfl, List.nil_append]
    simp only [passDirective]
    cases hheld : m.held with
    | true =>
      -- The cursor steps back over what it holds, which leaves the same text to be read.
      have hpos := (h.placed.back hheld).1
      have hback : m.unread = m.text.drop (m.position - 1) := by
        unfold unread
        rw [hheld]
      have hplaced : Placed m.text (m.position - 1) false m.current :=
        ⟨(Nat.sub_le _ _).trans h.placed.position_le, not_held⟩
      simp only [Bool.true_and, decide_eq_true_eq, if_neg hpos.ne', if_true]
      exact follows_leapTo hmark h.text hplaced rfl (hlimit hback.symm) rfl hback
        (hstep _ _)
    | false =>
      simp only [Bool.false_and]
      exact follows_leapTo hmark h.text h.placed hheld (hlimit rfl) rfl rfl (hstep _ _)
  | walking =>
    simp only [passDirective]
    rcases read_cases h.placed with ⟨hnil, hread⟩ | ⟨c, p, hread⟩
    · simp only [hread]
      rw [hnil] at hpasses
      rw [hnil, List.append_nil]
      exact follows_emitLast rfl (step_of_nil hmark hpasses rfl (hstep _ _))
    · simp only [hread.read]
      rw [hread.unread] at hpasses ⊢
      by_cases hc : c = '>'
      · rw [if_pos hc]
        refine follows_emit h.text hread.free rfl (hread.measure_lt rfl) ?_
        exact step_of_front hpasses (by rw [hc]; rfl) rfl (hstep _ _)
      · rw [if_neg hc]
        have hnot : ¬ ['>'] <+: c :: m.text.drop p := by
          rw [List.cons_prefix_cons]
          exact fun h => hc h.1.symm
        refine follows_stay ⟨h.text, hread.free, not_held, (hfits _).2 ⟨(absurd · (by decide)), hpasses.concat hnot⟩⟩
          (hread.measure_lt rfl) ?_
        rw [hconfig, ← List.singleton_append, ← List.append_assoc]
        rfl

/-! ## Declarations and marked sections -/

theorem step_section (sections : Bool) {content : Text} {moment : Config}
    (hmode : moment.mode = .declarationOpen) (hrest : moment.rest = Config.sectionOpening ++ content) :
    moment.step sections =
      match Text.cut? Config.sectionClosing content with
      | some (content, rest) => moment.emit (Config.sectionToken sections content) rest
      | none => moment.emit (Config.sectionToken sections content) [] := by
  have hcomment : "--".toList.isPrefixOf? (Config.sectionOpening ++ content) = none := rfl
  have hsection : Config.sectionOpening.isPrefixOf? (Config.sectionOpening ++ content) =
      some content :=
    Text.isPrefixOf?_eq_some_iff.2 rfl
  cases hcut : Text.cut? Config.sectionClosing content with
  | some found =>
    simp only [Config.step, hmode, Config.stepDeclarationOpen, hrest, hcomment, hsection, hcut]
  | none =>
    simp only [Config.step, hmode, Config.stepDeclarationOpen, hrest, hcomment, hsection, hcut]

theorem follows_leapSection {limit : Nat} {moment : Config}
    (htext : m.text = text) (h : Placed m.text m.position m.held m.current) (hfree : m.held = false)
    (hlimit : m.measure .data < limit) (hpending : moment.pending = m.pending)
    (hmode : moment.mode = .declarationOpen)
    (hrest : moment.rest = Config.sectionOpening ++ m.unread) :
    (m.leapSection sections).Follows gait sections text limit moment := by
  have hstep := step_section sections hmode hrest
  rw [unread_of_free hfree] at hstep
  unfold leapSection
  cases hcut : Text.cut? Config.sectionClosing m.ahead with
  | some found =>
    obtain ⟨content, rest⟩ := found
    rw [hcut] at hstep
    have hskips := skips_of_ahead h hfree (Text.eq_append_of_cut? hcut)
    have hlt := hskips.length_lt (List.append_ne_nil_of_right_ne_nil _ (by decide))
    refine follows_emit htext hskips.placed hpending ((measure_lt_of_length_lt hlt).trans hlimit) ?_
    exact hstep.trans (congrArg (moment.emit _) hskips.skipped.symm)
  | none =>
    rw [hcut] at hstep
    have hskips := skips_of_ahead h hfree (List.append_nil _).symm
    have hle : (m.skip m.ahead).unread.length ≤ m.unread.length := by
      rw [hskips.skipped]
      exact Nat.zero_le _
    refine follows_emit htext hskips.placed hpending (lt_of_le_of_lt ?_ hlimit) ?_
    · exact Nat.add_le_add_right (Nat.mul_le_mul_left 2 hle) _
    · exact hstep.trans (congrArg (moment.emit _) hskips.skipped.symm)

theorem follows_section (h : m.Sound gait text .markedSection) :
    (m.passSection sections).Follows gait sections text (m.measure .markedSection)
      (m.config .markedSection) := by
  have hfree := h.free rfl
  obtain ⟨hgait, hpasses⟩ := h.fits
  have hmode : (m.config .markedSection).mode = .declarationOpen := rfl
  have hstep := step_section sections hmode rfl
  unfold passSection
  by_cases hend : Config.sectionClosing <+: m.ahead
  · obtain ⟨rest, hrest⟩ := hend
    have hskips := skips_of_ahead h.placed hfree hrest.symm
    have hlt := hskips.length_lt (by decide)
    rw [hpasses.cut?_of_front hskips.unread] at hstep
    rw [if_pos ⟨rest, hrest⟩]
    refine follows_emit h.text hskips.placed rfl (measure_lt_of_length_lt hlt) ?_
    exact hstep.trans (congrArg (Config.emit _ _) hskips.skipped.symm)
  · rw [if_neg hend]
    rcases read_cases h.placed with ⟨hnil, hread⟩ | ⟨c, p, hread⟩
    · simp only [hread]
      rw [hnil] at hpasses
      rw [hnil, List.append_nil, hpasses.cut?_of_nil (by decide)] at hstep
      have hplaced : Placed m.text m.position m.held none :=
        ⟨h.placed.position_le, elim_held hfree⟩
      -- At the end of the text no character is left that could make the cursor smaller.
      have hrank : State.rank .data < State.rank .markedSection := by decide
      refine follows_emit h.text hplaced rfl (measure_lt_of_rank_lt rfl hrank) ?_
      exact hstep.trans (congrArg (Config.emit _ _) hnil.symm)
    · simp only [hread.read]
      rw [← unread_of_free hfree, hread.unread] at hend
      rw [hread.unread] at hpasses
      refine follows_stay ⟨h.text, hread.free, not_held, hgait, hpasses.concat hend⟩
        (hread.measure_lt rfl) ?_
      simp only [config, hread.unread, List.append_assoc]
      rfl

theorem follows_declarationOpen (h : m.Sound gait text .declarationOpen) :
    (m.passDeclarationOpen gait sections).Follows gait sections text (m.measure .declarationOpen)
      (m.config .declarationOpen) := by
  have hfree := h.free rfl
  have hnone : ∀ {mark : Text}, ¬ mark <+: m.ahead → mark.isPrefixOf? m.unread = none := by
    intro mark hnot
    rw [unread_of_free hfree]
    exact Option.eq_none_iff_forall_ne_some.2 fun rest hrest =>
      hnot ⟨rest, (Text.isPrefixOf?_eq_some_iff.1 hrest).symm⟩
  unfold passDeclarationOpen
  split
  · next hcomment =>
    obtain ⟨rest, hrest⟩ := hcomment
    have hskips := skips_of_ahead h.placed hfree hrest.symm
    have hlt := hskips.length_lt (by decide)
    refine follows_step ⟨h.text, hskips.placed, elim_held hfree, fun _ => rfl, .nil _ _⟩
      (measure_lt_of_length_lt hlt) ?_
    simp only [config, Config.step, Config.stepDeclarationOpen,
      Text.isPrefixOf?_eq_some_iff.2 hskips.unread]
    exact congrArg (Config.enter _ _) hskips.skipped.symm
  · next hcomment =>
    split
    · next hsection =>
      obtain ⟨rest, hrest⟩ := hsection
      have hskips := skips_of_ahead h.placed hfree hrest.symm
      have hlt := hskips.length_lt (by decide)
      have hrest : (m.config .declarationOpen).rest =
          Config.sectionOpening ++ (m.skip Config.sectionOpening).unread :=
        hskips.unread.trans (congrArg _ hskips.skipped.symm)
      cases gait with
      | leaping =>
        exact follows_leapSection h.text hskips.placed hfree (measure_lt_of_length_lt hlt) rfl rfl hrest
      | walking =>
        -- The scan takes the section as a whole, so that it waits here until the cursor has read it.
        refine follows_stay ⟨h.text, hskips.placed, elim_held hfree, rfl, .nil _ _⟩
          (measure_lt_of_length_lt hlt) ?_
        exact congrArg (fun rest => Config.run sections ⟨.declarationOpen, m.pending, rest⟩) hrest
    · next hsection =>
      refine follows_step ⟨h.text, h.placed, elim_held hfree, fun _ => rfl, .nil _ _⟩
        (measure_lt_of_rank_lt rfl (by decide)) ?_
      simp only [config, Config.step, Config.stepDeclarationOpen, hnone hcomment, hnone hsection]
      rfl

/-! ## Raw text -/

theorem rawEnd?_of_endsRaw {name text : Text} (h : endsRaw name text = true) :
    ∃ rest, text = '<' :: '/' :: rest ∧ rawEnd? name text = some ([], rest) := by
  unfold endsRaw at h
  split at h
  · next rest => exact ⟨rest, rfl, by simp [rawEnd?, h]⟩
  · cases h

theorem rawEnd?_cons {name text : Text} {c : Char} (h : endsRaw name (c :: text) = false) :
    rawEnd? name (c :: text) = (rawEnd? name text).map fun (raw, rest) => (c :: raw, rest) := by
  rw [rawEnd?.eq_def]
  simp only
  split
  · next rest =>
    split
    · next hhere =>
      simp only [Bool.and_eq_true, decide_eq_true_eq] at hhere
      rw [hhere.1, endsRaw, hhere.2] at h
      cases h
    · rfl
  · rfl

/-- The end tag of raw text is read as any other. -/
theorem follows_leaveRaw {limit : Nat} {rest : Text} {moment : Config}
    (htext : m.text = text) (hfree : m.held = false) (hskips : m.Skips ['<', '/'] rest)
    (hlimit : m.measure .rawText ≤ limit)
    (hstep : moment.step sections = .advance (flush m.pending) ⟨.endTagOpen, [], rest⟩) :
    m.leaveRaw.Follows gait sections text limit moment := by
  have hlt := hskips.length_lt (List.cons_ne_nil _ _)
  rw [← hskips.skipped] at hstep
  exact ⟨.endTagOpen, rfl, ⟨htext, hskips.placed, elim_held hfree, trivial⟩,
    (measure_lt_of_length_lt hlt).trans_le hlimit, Config.run_of_advance hstep⟩

theorem follows_rawText (h : m.Sound gait text .rawText) :
    (m.passRawText gait).Follows gait sections text (m.measure .rawText) (m.config .rawText) := by
  have hfree := h.free rfl
  obtain ⟨name, hname⟩ := Option.ne_none_iff_exists'.1 h.fits
  have hmoment : m.config .rawText = ⟨.rawText name, m.pending, m.unread⟩ := by
    simp only [config, hname, Option.getD_some]
  rw [hmoment]
  unfold passRawText
  simp only [hname]
  cases gait with
  | leaping =>
    cases hend : rawEnd? name m.ahead with
    | some found =>
      obtain ⟨raw, rest⟩ := found
      have hskips := skips_of_ahead h.placed hfree (Config.eq_append_of_rawEnd? hend)
      have hskip : (m.skip raw).held = false := hfree
      have hsign : ((m.addText raw).skip raw).Skips ['<', '/'] rest :=
        skips_of_ahead hskips.placed hfree ((unread_of_free hskip).symm.trans hskips.skipped)
      refine follows_leaveRaw h.text hfree hsign ?_ ?_
      · refine Nat.mul_le_mul_left 2 ?_
        refine (congrArg List.length hskips.skipped).trans_le ?_
        rw [hskips.unread]
        exact (List.suffix_append raw _).length_le
      · simp only [Config.step, Config.stepRawText, unread_of_free hfree, hend]
        rfl
    | none =>
      refine Config.run_of_finish ?_
      simp only [Config.step, Config.stepRawText, unread_of_free hfree, hend]
      rfl
  | walking =>
    cases hend : endsRaw name m.ahead with
    | true =>
      obtain ⟨rest, hrest, hhere⟩ := rawEnd?_of_endsRaw hend
      have hskips : m.Skips ['<', '/'] rest := skips_of_ahead h.placed hfree hrest
      simp only [if_true]
      refine follows_leaveRaw h.text hfree hskips le_rfl ?_
      simp only [Config.step, Config.stepRawText, unread_of_free hfree, hhere, List.append_nil]
    | false =>
      simp only [Bool.false_eq_true, if_false]
      rcases read_cases h.placed with ⟨hnil, hread⟩ | ⟨c, p, hread⟩
      · simp only [hread, hnil]
        refine Config.run_of_finish ?_
        simp only [Config.step, Config.stepRawText, rawEnd?, List.append_nil]
        rfl
      · simp only [hread.read]
        rw [← unread_of_free hfree, hread.unread] at hend
        refine follows_stay ⟨h.text, hread.free, not_held, h.fits⟩ (hread.measure_lt rfl) ?_
        have hnext : (({ m with position := p, held := false, current := some c }).addText [c]).config
            .rawText = ⟨.rawText name, m.pending ++ [c], m.text.drop p⟩ := by
          simp only [config, addText, hname, Option.getD_some]
          rfl
        rw [hnext, hread.unread]
        refine Config.run_congr ?_
        simp only [Config.step, Config.stepRawText, rawEnd?_cons hend]
        cases rawEnd? name (m.text.drop p) with
        | none => simp [Config.close]
        | some found => simp

/-! ## Every state -/

/-- A pass of a cursor that is in order follows the scan. -/
theorem follows_pass (sections : Bool) (h : m.Sound gait text state) :
    (m.pass gait sections state.code).Follows gait sections text (m.measure state)
      (m.config state) := by
  unfold pass
  rw [State.ofCode?_code]
  cases state with
  | data => exact follows_data h
  | tagOpen => exact follows_tagOpen h
  | endTagOpen => exact follows_endTagOpen h
  | tagName => exact follows_tagName h
  | beforeAttribute => exact follows_beforeAttribute h
  | attributeName => exact follows_attributeName h
  | afterAttributeName => exact follows_afterAttributeName h
  | beforeValue => exact follows_beforeValue h
  | doubleValue => exact follows_quotedValue (fun _ => rfl) (fun _ => Iff.rfl) h
  | singleValue => exact follows_quotedValue (fun _ => rfl) (fun _ => Iff.rfl) h
  | bareValue => exact follows_bareValue h
  | selfClosing => exact follows_selfClosing h
  | declarationOpen => exact follows_declarationOpen h
  | comment => exact follows_comment h
  | declaration =>
    exact follows_directive (fun _ => rfl) (fun _ _ => rfl) (fun _ => Iff.rfl) h
  | instruction =>
    exact follows_directive (fun _ => rfl) (fun _ _ => rfl) (fun _ => Iff.rfl) h
  | bogusComment =>
    exact follows_directive (fun _ => rfl) (fun _ _ => rfl) (fun _ => Iff.rfl) h
  | rawText => exact follows_rawText h
  | markedSection => exact follows_section h

end Cursor
end MarkupBinding.Scanner
