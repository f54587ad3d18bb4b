import MarkupBinding.Proofs.Token.Cursor
import MarkupBinding.Proofs.Token.Shape

/-!
# What a cursor stands for

Whatever its gait, a cursor stands for a moment of the scan. A character that is held back is still to
be read there, and so is what a walking cursor has read of a run: its end has not been seen. So a pass
may leave the moment as it is. It takes characters then.

* `Cursor.Sound`: the registers of a cursor are in order.
* `Cursor.config`: the moment that it stands for.
* `Cursor.measure`: what gets smaller with every pass. It is the text still to be read that counts and
  not the position, which may go back.
* `Pass.Follows`: what is proved of a pass.
-/

namespace MarkupBinding.Scanner

/-- Whether a state may find a character held back. -/
def State.holds : State → Bool
  | .data | .beforeAttribute | .bareValue | .bogusComment => true
  | _ => false

/-- A character is not held back where none is. -/
theorem not_held {p : Prop} (h : false = true) : p := Bool.noConfusion h

theorem State.rank_le_one (state : State) : state.rank ≤ 1 := by
  cases state <;> simp [State.rank]

/-- A position in a text, with a character of the text before it if one is held back. -/
structure Placed (text : Text) (position : Nat) (held : Bool) (current : Option Char) : Prop where
  position_le : position ≤ text.length
  back : held = true → 0 < position ∧ ∃ c, current = some c ∧ text[position - 1]? = some c

namespace Cursor

/-- The text that is still to be read, from the character that is held back. -/
def unread (m : Cursor) : Text :=
  match m.held with
  | true => m.text.drop (m.position - 1)
  | false => m.ahead

/-- What reading a character does to a cursor. -/
structure Reads (m : Cursor) (c : Char) (position : Nat) : Prop where
  read : m.read = (some c, { m with position, held := false, current := some c })
  unread : m.unread = c :: m.text.drop position
  back : m.text.drop (position - 1) = c :: m.text.drop position
  free : Placed m.text position false (some c)
  held : Placed m.text position true (some c)

variable {m : Cursor}

/-- A cursor reads the next character or comes to the end. -/
theorem read_cases (h : Placed m.text m.position m.held m.current) :
    m.unread = [] ∧ m.read = (none, { m with current := none }) ∨ ∃ c position, m.Reads c position := by
  obtain ⟨text, position, held, current, _⟩ := m
  -- Both ways of reading end with the character right before the position.
  have hback : ∀ {p : Nat} {c : Char}, 0 < p → text[p - 1]? = some c → p ≤ text.length →
      text.drop (p - 1) = c :: text.drop p ∧ Placed text p false (some c) ∧
        Placed text p true (some c) := by
    intro p c hpos hchar hle
    obtain ⟨hlt, rfl⟩ := List.getElem?_eq_some_iff.1 hchar
    have hdrop := List.drop_eq_getElem_cons hlt
    rw [show p - 1 + 1 = p by omega] at hdrop
    exact ⟨hdrop, ⟨hle, not_held⟩, ⟨hle, fun _ => ⟨hpos, _, rfl, hchar⟩⟩⟩
  cases held with
  | true =>
    obtain ⟨hpos, c, hcurrent, hchar⟩ := h.back rfl
    obtain rfl : current = some c := hcurrent
    obtain ⟨hdrop, hfree, hheld⟩ := hback hpos hchar h.position_le
    exact .inr ⟨c, position, rfl, hdrop, hdrop, hfree, hheld⟩
  | false =>
    cases hchar : text[position]? with
    | none =>
      refine .inl ⟨List.drop_eq_nil_of_le (List.getElem?_eq_none_iff.1 hchar), ?_⟩
      simp [read, hchar]
    | some c =>
      have hlt := (List.getElem?_eq_some_iff.1 hchar).1
      obtain ⟨hdrop, hfree, hheld⟩ := hback (Nat.succ_pos position) hchar hlt
      refine .inr ⟨c, position + 1, ?_, hdrop, hdrop, hfree, hheld⟩
      simp [read, hchar]

theorem elim_held {p : Prop} (hfree : m.held = false) (hheld : m.held = true) : p :=
  not_held (hfree.symm.trans hheld)

theorem unread_of_free (h : m.held = false) : m.unread = m.ahead := by
  unfold unread
  rw [h]

/-- A cursor that holds nothing back can pass over what stands ahead. -/
structure Skips (m : Cursor) (front rest : Text) : Prop where
  unread : m.unread = front ++ rest
  skipped : (m.skip front).unread = rest
  placed : Placed m.text (m.position + front.length) m.held m.current

theorem skips_of_ahead {front rest : Text} (h : Placed m.text m.position m.held m.current)
    (hfree : m.held = false) (hahead : m.ahead = front ++ rest) : m.Skips front rest := by
  refine ⟨by rw [unread_of_free hfree, hahead], ?_, ?_, elim_held hfree⟩
  · have hskip : (m.skip front).held = false := hfree
    rw [unread_of_free hskip, skip, ahead, ← List.drop_drop]
    exact (congrArg (List.drop _) hahead).trans (List.drop_left ..)
  · have hlength := congrArg List.length hahead
    rw [show m.ahead.length = m.text.length - m.position from List.length_drop, List.length_append]
      at hlength
    have := h.position_le
    omega

theorem Skips.length_lt {front rest : Text} (h : m.Skips front rest) (hfront : front ≠ []) :
    (m.skip front).unread.length < m.unread.length := by
  rw [h.skipped, h.unread, List.length_append]
  exact Nat.lt_add_of_pos_left (List.length_pos_iff.2 hfront)

/-- No mark begins in the first of two texts. -/
def Passes (mark front back : Text) : Prop :=
  ∀ before after, front = before ++ after → after ≠ [] → ¬ mark <+: after ++ back

theorem Passes.nil (mark back : Text) : Passes mark [] back := by
  intro before after hnil hafter
  exact absurd (List.append_eq_nil_iff.1 hnil.symm).2 hafter

theorem Passes.concat {mark front back : Text} {c : Char} (h : Passes mark front (c :: back))
    (hc : ¬ mark <+: c :: back) : Passes mark (front ++ [c]) back := by
  intro before after heq hafter
  obtain ⟨after, d, rfl⟩ := (List.eq_nil_or_concat after).resolve_left hafter
  rw [List.concat_eq_append, ← List.append_assoc] at heq
  obtain ⟨hfront, hlast⟩ := List.append_inj' heq rfl
  obtain rfl := List.singleton_inj.1 hlast
  rw [List.concat_eq_append, List.append_assoc, List.singleton_append]
  by_cases hnil : after = []
  · rwa [hnil]
  · exact h before after hfront hnil

/-- The mark is found behind what it does not begin in. -/
theorem Passes.cut? {mark front back : Text} (h : Passes mark front back) :
    Text.cut? mark (front ++ back) =
      (Text.cut? mark back).map fun found => (front ++ found.1, found.2) := by
  induction front with
  | nil =>
    rw [List.nil_append]
    cases Text.cut? mark back <;> rfl
  | cons c front ih =>
    have hlater : Passes mark front back := by
      intro before after heq
      exact h (c :: before) after (by rw [heq, List.cons_append])
    -- The search goes past a character that the mark does not begin at.
    have hnot : ¬ mark <+: c :: (front ++ back) := h [] (c :: front) rfl (List.cons_ne_nil _ _)
    rw [List.cons_append, Text.cut?_cons_of_not_front hnot, ih hlater, Option.map_map]
    rfl

theorem Passes.cut?_of_front {mark front back rest : Text} (h : Passes mark front back)
    (hback : back = mark ++ rest) : Text.cut? mark (front ++ back) = some (front, rest) := by
  have hhere : Text.cut? mark back = some ([], rest) := by
    rw [Text.cut?.eq_def, Text.isPrefixOf?_eq_some_iff.2 hback]
  rw [h.cut?, hhere, Option.map_some, List.append_nil]

theorem Passes.cut?_of_nil {mark front : Text} (hmark : mark ≠ []) (h : Passes mark front []) :
    Text.cut? mark front = none := by
  have hnone : Text.cut? mark [] = none := by
    cases hcut : Text.cut? mark [] with
    | none => rfl
    | some found =>
      have hnil := (List.append_eq_nil_iff.1 (Text.eq_append_of_cut? hcut).symm).1
      exact absurd (List.append_eq_nil_iff.1 hnil).2 hmark
  have hcut := h.cut?
  rwa [hnone, List.append_nil, Option.map_none] at hcut

/-- What the registers hold in each state. -/
def Fits (gait : Gait) (m : Cursor) : State → Prop
  | .data | .tagOpen | .endTagOpen | .declarationOpen => True
  | .tagName =>
    m.name ≠ [] ∧ (∀ c ∈ m.name, endsName c = false) ∧ m.attrs = [] ∧ m.attributeName = [] ∧
      m.attributeValue = []
  | .beforeAttribute | .selfClosing =>
    m.name ≠ [] ∧ m.attributeName = [] ∧ m.attributeValue = []
  | .attributeName =>
    m.name ≠ [] ∧ (∃ first more, m.attributeName = first :: more ∧
      ∀ c ∈ more, endsAttributeName c = false) ∧ m.attributeValue = []
  | .afterAttributeName | .beforeValue =>
    m.name ≠ [] ∧ m.attributeName ≠ [] ∧ m.attributeValue = []
  | .doubleValue => m.name ≠ [] ∧ m.attributeName ≠ [] ∧ Text.doubleMark ∉ m.attributeValue
  | .singleValue => m.name ≠ [] ∧ m.attributeName ≠ [] ∧ Text.singleMark ∉ m.attributeValue
  | .bareValue =>
    m.name ≠ [] ∧ m.attributeName ≠ [] ∧ ∀ c ∈ m.attributeValue, endsBareValue c = false
  | .comment => (gait = .leaping → m.content = []) ∧ Passes "-->".toList m.content m.unread
  | .declaration | .instruction | .bogusComment =>
    (gait = .leaping → m.content = []) ∧ Passes ['>'] m.content m.unread
  | .rawText => m.rawName ≠ none
  | .markedSection => gait = .walking ∧ Passes Config.sectionClosing m.content m.unread

/-- A cursor whose registers are in order. -/
structure Sound (gait : Gait) (text : Text) (state : State) (m : Cursor) : Prop where
  text : m.text = text
  placed : Placed m.text m.position m.held m.current
  holds : m.held = true → state.holds = true
  fits : m.Fits gait state

theorem Sound.free {gait : Gait} {text : Text} {state : State} (h : m.Sound gait text state)
    (hstate : state.holds = false) : m.held = false := by
  cases hheld : m.held with
  | false => rfl
  | true => exact not_held (hstate.symm.trans (h.holds hheld))

/-- The tag that is being read. -/
def draft (m : Cursor) : Draft := ⟨m.side, m.name, m.attrs⟩

/-- What a cursor stands for: a moment of a scan. What the cursor has read of a run is still to be read
there. -/
def config (m : Cursor) : State → Config
  | .data => ⟨.data, m.pending, m.unread⟩
  | .tagOpen => ⟨.tagOpen, m.pending, m.unread⟩
  | .endTagOpen => ⟨.endTagOpen, m.pending, m.unread⟩
  | .tagName => ⟨.tagName m.side, m.pending, m.name ++ m.unread⟩
  | .beforeAttribute => ⟨.beforeAttribute m.draft, m.pending, m.unread⟩
  | .attributeName => ⟨.attributeName m.draft, m.pending, m.attributeName ++ m.unread⟩
  | .afterAttributeName => ⟨.afterAttributeName m.draft m.attributeName, m.pending, m.unread⟩
  | .beforeValue => ⟨.beforeValue m.draft m.attributeName, m.pending, m.unread⟩
  | .doubleValue =>
    ⟨.quotedValue m.draft m.attributeName Text.doubleMark, m.pending, m.attributeValue ++ m.unread⟩
  | .singleValue =>
    ⟨.quotedValue m.draft m.attributeName Text.singleMark, m.pending, m.attributeValue ++ m.unread⟩
  | .bareValue => ⟨.bareValue m.draft m.attributeName, m.pending, m.attributeValue ++ m.unread⟩
  | .selfClosing => ⟨.selfClosing m.draft, m.pending, m.unread⟩
  | .declarationOpen => ⟨.declarationOpen, m.pending, m.unread⟩
  | .comment => ⟨.comment, m.pending, m.content ++ m.unread⟩
  | .declaration => ⟨.declaration, m.pending, m.content ++ m.unread⟩
  | .instruction => ⟨.instruction, m.pending, m.content ++ m.unread⟩
  | .bogusComment => ⟨.bogusComment, m.pending, m.content ++ m.unread⟩
  | .rawText => ⟨.rawText (m.rawName.getD []), m.pending, m.unread⟩
  | .markedSection =>
    ⟨.declarationOpen, m.pending, Config.sectionOpening ++ (m.content ++ m.unread)⟩

/-- Two for each character still to be read, and how many passes the state may make without one. -/
def measure (m : Cursor) (state : State) : Nat := 2 * m.unread.length + state.rank

end Cursor

/-- A pass from a cursor that stands for a moment of a scan goes on with a sound and smaller cursor
that stands for a later one, having given out the tokens between the two, or finishes with the rest of
them. -/
def Pass.Follows (gait : Gait) (sections : Bool) (text : Text) (limit : Nat) (moment : Config) :
    Pass → Prop
  | .advance tokens n next => ∃ state : State, n = state.code ∧ next.Sound gait text state ∧
      next.measure state < limit ∧
        moment.run sections = tokens ++ (next.config state).run sections
  | .finish tokens => moment.run sections = tokens
  | .fail _ => False

namespace Cursor

variable {gait : Gait} {sections : Bool} {text : Text} {m next : Cursor} {state state' : State}

/-- With less text to be read a cursor is smaller. -/
theorem measure_lt_of_length_lt (h : next.unread.length < m.unread.length) :
    next.measure state' < m.measure state := by
  have hrank := State.rank_le_one state'
  unfold measure
  omega

/-- With the same text it is smaller in a state that must take a character. -/
theorem measure_lt_of_rank_lt (h : next.unread = m.unread) (hrank : state'.rank < state.rank) :
    next.measure state' < m.measure state := by
  unfold measure
  rw [h]
  omega

/-- A pass that takes the step of the scan. -/
theorem follows_step {limit : Nat} {moment : Config} (hsound : next.Sound gait text state')
    (hmeasure : next.measure state' < limit)
    (hstep : moment.step sections = .advance [] (next.config state')) :
    (next.enter state').Follows gait sections text limit moment :=
  ⟨state', rfl, hsound, hmeasure, Config.run_of_advance hstep⟩

/-- A pass inside of a run, on which the scan stays where it is. -/
theorem follows_stay {limit : Nat} {moment : Config} (hsound : next.Sound gait text state')
    (hmeasure : next.measure state' < limit)
    (hrun : moment.run sections = (next.config state').run sections) :
    (next.enter state').Follows gait sections text limit moment :=
  ⟨state', rfl, hsound, hmeasure, hrun⟩

/-- At the end of the text the data that wait are given out. -/
theorem follows_close {limit : Nat} {moment : Config} (hpending : moment.pending = next.pending)
    (hstep : moment.step sections = moment.close) :
    next.close.Follows gait sections text limit moment := by
  rw [Config.close, hpending] at hstep
  exact Config.run_of_finish hstep

/-- A token that stands at the end of the text. -/
theorem follows_emitLast {limit : Nat} {moment : Config} {token : Token}
    (hpending : moment.pending = next.pending)
    (hstep : moment.step sections = .finish (flush moment.pending ++ [token, .endOfInput])) :
    (next.emitLast token).Follows gait sections text limit moment := by
  rw [hpending] at hstep
  exact Config.run_of_finish hstep

/-- A token leads back to character data. -/
theorem follows_emit {limit : Nat} {moment : Config} {token : Token}
    (htext : next.text = text) (hplaced : Placed next.text next.position next.held next.current)
    (hpending : moment.pending = next.pending) (hmeasure : next.measure .data < limit)
    (hstep : moment.step sections = moment.emit token next.unread) :
    (next.emit token).Follows gait sections text limit moment := by
  rw [Config.emit, hpending] at hstep
  exact ⟨.data, rfl, ⟨htext, hplaced, fun _ => rfl, trivial⟩, hmeasure, Config.run_of_advance hstep⟩

/-- What counts of the moment is what the scan makes of it. -/
theorem follows_congr {limit : Nat} {moment moment' : Config} {pass : Pass}
    (hrun : moment.run sections = moment'.run sections)
    (h : pass.Follows gait sections text limit moment') :
    pass.Follows gait sections text limit moment := by
  cases pass with
  | advance tokens n cursor =>
    obtain ⟨state, hn, hsound, hmeasure, hrest⟩ := h
    exact ⟨state, hn, hsound, hmeasure, hrun.trans hrest⟩
  | finish tokens => exact hrun.trans h
  | fail fault => exact h

theorem Reads.length_lt {c : Char} {p : Nat} (h : m.Reads c p) :
    (m.text.drop p).length < m.unread.length := by
  rw [h.unread]
  exact Nat.lt_succ_self _

/-- A cursor that has taken a character is smaller. -/
theorem Reads.measure_lt {c : Char} {p : Nat} (h : m.Reads c p)
    (hnext : next.unread = m.text.drop p) : next.measure state' < m.measure state :=
  measure_lt_of_length_lt (hnext ▸ h.length_lt)

/-- So is one that holds a character back for a state that must take it. -/
theorem Reads.hold_measure_lt {c : Char} {p : Nat} (h : m.Reads c p)
    (hnext : next.unread = m.text.drop (p - 1)) (hrank : state'.rank < state.rank) :
    next.measure state' < m.measure state :=
  measure_lt_of_rank_lt (hnext.trans (h.back.trans h.unread.symm)) hrank

/-- A question that the pass and the step ask alike. -/
theorem follows_ite {limit : Nat} {moment : Config} {p : Prop} [Decidable p] {step step' : Step}
    {pass pass' : Pass} (hstep : moment.step sections = if p then step else step')
    (hpos : p → moment.step sections = step → pass.Follows gait sections text limit moment)
    (hneg : ¬ p → moment.step sections = step' → pass'.Follows gait sections text limit moment) :
    (if p then pass else pass').Follows gait sections text limit moment := by
  split
  · next h =>
    rw [if_pos h] at hstep
    exact hpos h hstep
  · next h =>
    rw [if_neg h] at hstep
    exact hneg h hstep

end Cursor
end MarkupBinding.Scanner
