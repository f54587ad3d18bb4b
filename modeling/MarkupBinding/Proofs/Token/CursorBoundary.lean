import MarkupBinding.Proofs.Token.CursorRun
import MarkupBinding.Proofs.Token.Stream

/-!
# A text that is cut where nothing is under way

A leaping cursor looks far ahead, but what it takes is decided by what it passes over: in the text up to
a position that it comes to, it takes the same. The exception is the end tag of raw text. It is looked
for as a whole, and the cursor then stands behind its first two characters only, so up to the end of
the name the text must be there as well. Where the cursor stands in character data and nothing waits,
all this is behind it, and the text may be cut.

* `Pass.IsLocal`: a pass does not depend on what stands behind the place that it leads to.
* `Reaches.upTo`: a cursor comes to the same in the text up to there.
* `tokens_split`: the tokens of a text are those of its two parts.
-/

namespace MarkupBinding

/-! ## Looking ahead in a shorter text -/

/-- A mark that is found in a text is found in the front of the text that holds it. -/
theorem Text.cut?_take {mark text before after : Text} (h : Text.cut? mark text = some (before, after))
    {n : Nat} (hn : before.length + mark.length ≤ n) :
    Text.cut? mark (text.take n) =
      some (before, after.take (n - (before.length + mark.length))) := by
  obtain rfl := Text.eq_append_of_cut? h
  rw [List.take_append, List.take_of_length_le (by rw [List.length_append]; exact hn),
    List.length_append]
  exact Text.cut?_of_cut? h _

namespace Scanner

/-- A run that ends within the front of a text is the same there. -/
theorem takeWhile_take {p : Char → Bool} {text : Text} {n : Nat}
    (h : (text.takeWhile p).length ≤ n) : (text.take n).takeWhile p = text.takeWhile p := by
  induction text generalizing n with
  | nil => rw [List.take_nil]
  | cons c text ih =>
    rw [List.takeWhile_cons] at h ⊢
    split at h
    · next hc =>
      have hpos : 0 < n := Nat.lt_of_lt_of_le (Nat.succ_pos _) h
      obtain ⟨n, rfl⟩ := Nat.exists_eq_succ_of_ne_zero hpos.ne'
      rw [List.take_succ_cons, List.takeWhile_cons_of_pos hc, if_pos hc,
        ih (Nat.le_of_succ_le_succ h)]
    · next hc =>
      rw [if_neg hc]
      cases n with
      | zero => rfl
      | succ n => rw [List.take_succ_cons, List.takeWhile_cons_of_neg hc]

theorem beginsWithName_append {name text : Text} (h : beginsWithName name text = true)
    (more : Text) : beginsWithName name (text ++ more) = true := by
  induction name generalizing text with
  | nil =>
    cases text with
    | nil => cases h
    | cons c text => exact h
  | cons letter name ih =>
    cases text with
    | nil => cases h
    | cons c text =>
      have hboth : (matchesLetter letter c && beginsWithName name text) = true := h
      obtain ⟨hletter, htext⟩ := (Bool.and_eq_true _ _).mp hboth
      show (matchesLetter letter c && beginsWithName name (text ++ more)) = true
      rw [hletter, ih htext]
      rfl

/-- The name of an end tag stands in the front of a text that holds a character which ends a name. -/
theorem beginsWithName_take {name text : Text} (hname : ∀ c ∈ name, Text.isLatin c.toLower = true)
    (h : beginsWithName name text = true) {n : Nat} (hends : ∃ c ∈ text.take n, endsName c = true) :
    beginsWithName name (text.take n) = true := by
  induction name generalizing text n with
  | nil =>
    cases text with
    | nil => cases h
    | cons c text =>
      cases n with
      | zero => simp at hends
      | succ n => exact h
  | cons letter name ih =>
    obtain ⟨hletter, hname⟩ := List.forall_mem_cons.1 hname
    cases text with
    | nil => cases h
    | cons c text =>
      have hboth : (matchesLetter letter c && beginsWithName name text) = true := h
      obtain ⟨hmatch, htext⟩ := (Bool.and_eq_true _ _).mp hboth
      have hc := endsName_of_isLetter (isLetter_of_matchesLetter hletter hmatch)
      cases n with
      | zero => simp at hends
      | succ n =>
        obtain ⟨d, hd, hends⟩ := hends
        have hlater : d ∈ text.take n :=
          (List.mem_cons.1 hd).resolve_left fun heq => by
            rw [heq, hc] at hends
            cases hends
        show (matchesLetter letter c && beginsWithName name (text.take n)) = true
        rw [hmatch, ih hname htext ⟨d, hlater, hends⟩]
        rfl

namespace Cursor

theorem endsRaw_append {name text : Text} (h : endsRaw name text = true) (more : Text) :
    endsRaw name (text ++ more) = true := by
  obtain ⟨rest, rfl, _⟩ := rawEnd?_of_endsRaw h
  exact beginsWithName_append h more

/-- What stands behind the name of the end tag does not matter. -/
theorem rawEnd?_of_append {name raw short : Text} (more : Text)
    (h : rawEnd? name (raw ++ '<' :: '/' :: (short ++ more)) = some (raw, short ++ more))
    (hname : beginsWithName name short = true) :
    rawEnd? name (raw ++ '<' :: '/' :: short) = some (raw, short) := by
  induction raw with
  | nil =>
    have hends : endsRaw name ('<' :: '/' :: short) = true := hname
    obtain ⟨rest, hrest, hend⟩ := rawEnd?_of_endsRaw hends
    cases hrest
    exact hend
  | cons c raw ih =>
    -- No end tag stands at the front, for it would stand there in the longer text too.
    have hlong : endsRaw name (c :: (raw ++ '<' :: '/' :: (short ++ more))) = false := by
      refine Bool.eq_false_iff.2 fun hends => ?_
      obtain ⟨rest, _, hend⟩ := rawEnd?_of_endsRaw hends
      rw [List.cons_append, hend] at h
      cases h
    have hshort : endsRaw name (c :: (raw ++ '<' :: '/' :: short)) = false := by
      refine Bool.eq_false_iff.2 fun hends => ?_
      have hends := endsRaw_append hends more
      rw [List.cons_append, List.append_assoc, List.cons_append, List.cons_append, hlong] at hends
      cases hends
    rw [List.cons_append, rawEnd?_cons hlong] at h
    obtain ⟨⟨raw', rest'⟩, hfound, heq⟩ := Option.map_eq_some_iff.1 h
    obtain ⟨hraw, rfl⟩ := Prod.mk.inj heq
    obtain rfl := (List.cons.inj hraw).2
    rw [List.cons_append, rawEnd?_cons hshort, ih hfound]
    rfl

/-- Raw text ends in the front of a text where it ends in the text, if the end tag is there up to its
name. -/
theorem rawEnd?_take {name text raw rest : Text} (h : rawEnd? name text = some (raw, rest)) {n : Nat}
    (hn : raw.length + 2 ≤ n) (hname : beginsWithName name (rest.take (n - (raw.length + 2))) = true) :
    rawEnd? name (text.take n) = some (raw, rest.take (n - (raw.length + 2))) := by
  have htext := Config.eq_append_of_rawEnd? h
  have hfront : text.take n = raw ++ '<' :: '/' :: rest.take (n - (raw.length + 2)) := by
    obtain ⟨j, hj⟩ : ∃ j, n - raw.length = j + 2 := ⟨n - raw.length - 2, by omega⟩
    rw [htext, List.take_append, List.take_of_length_le (by omega), hj,
      show n - (raw.length + 2) = j by omega]
    rfl
  rw [hfront]
  refine rawEnd?_of_append (rest.drop (n - (raw.length + 2))) ?_ hname
  rw [List.take_append_drop, ← htext]
  exact h

end Cursor

/-! ## Passes in a shorter text -/

/-- Whether a state waits for the end of a name, or for what closes an end tag without one. -/
def State.awaitsEnd : State → Bool
  | .endTagOpen | .tagName | .bogusComment => true
  | _ => false

/-- Two states have two numbers. -/
theorem State.code_injective : Function.Injective State.code := fun state state' h => by
  have hof := State.ofCode?_code state
  rw [h, State.ofCode?_code] at hof
  exact (Option.some_inj.1 hof).symm

namespace Cursor

/-- The same cursor in the text up to a position. -/
def upTo (m : Cursor) (k : Nat) : Cursor := { m with text := m.text.take k }

/-- A cursor before a position. If its state waits for the end of a name, that comes before the position
too. -/
structure Before (k n : Nat) (m : Cursor) : Prop where
  position_le : m.position ≤ k
  ends : ∀ state : State, n = state.code → state.awaitsEnd = true →
    ∃ c ∈ (m.upTo k).unread, endsName c = true

/-- The name whose end tag closes raw text is that of a raw text element. -/
def NamesRaw (m : Cursor) : Prop := ∀ name, m.rawName = some name → Element.isRawText name = true

end Cursor

/-- A pass that does not go back and depends on nothing behind a position unless it leads beyond it. -/
def Pass.IsLocal (k : Nat) (m : Cursor) (pass short : Pass) : Prop :=
  ∀ tokens n next, pass = .advance tokens n next →
    m.position ≤ next.position ∧ (m.NamesRaw → next.NamesRaw) ∧
      (next.Before k n → short = .advance tokens n (next.upTo k))

namespace Cursor

variable {k : Nat} {m : Cursor} {sections : Bool}

theorem ahead_upTo (m : Cursor) (k : Nat) : (m.upTo k).ahead = m.ahead.take (k - m.position) :=
  List.drop_take

theorem finishAttribute_upTo (m : Cursor) (k : Nat) :
    (m.upTo k).finishAttribute = m.finishAttribute.upTo k := by
  unfold finishAttribute upTo
  simp only
  split <;> rfl

theorem position_finishAttribute (m : Cursor) : m.finishAttribute.position = m.position := by
  unfold finishAttribute
  split <;> rfl

theorem rawName_finishAttribute (m : Cursor) : m.finishAttribute.rawName = m.rawName := by
  unfold finishAttribute
  split <;> rfl

theorem NamesRaw.congr {next : Cursor} (hname : next.rawName = m.rawName) (h : m.NamesRaw) :
    next.NamesRaw := fun name hnext => h name (hname ▸ hnext)

theorem local_ite {p : Prop} [Decidable p] {a a' b b' : Pass} (h : a.IsLocal k m a')
    (h' : b.IsLocal k m b') : Pass.IsLocal k m (if p then a else b) (if p then a' else b') := by
  split
  · exact h
  · exact h'

theorem local_finish (tokens : List Token) (short : Pass) :
    (Pass.finish tokens).IsLocal k m short := by
  rintro _ _ _ ⟨⟩

/-- Going on in another state with what has been read. -/
theorem local_enter {next : Cursor} {state : State} (hposition : next.position = m.position)
    (hname : next.rawName = m.rawName) :
    (next.enter state).IsLocal k m ((next.upTo k).enter state) := by
  rintro _ _ _ ⟨⟩
  exact ⟨Nat.le_of_eq hposition.symm, .congr hname, fun _ => rfl⟩

theorem local_finishAttribute (state : State) :
    (m.finishAttribute.enter state).IsLocal k m ((m.upTo k).finishAttribute.enter state) := by
  rw [finishAttribute_upTo]
  exact local_enter (position_finishAttribute m) (rawName_finishAttribute m)

theorem local_startAttribute {c : Char} :
    ((m.finishAttribute.startAttribute c).enter .attributeName).IsLocal k m
      (((m.upTo k).finishAttribute.startAttribute c).enter .attributeName) := by
  rw [finishAttribute_upTo]
  exact local_enter (position_finishAttribute m) (rawName_finishAttribute m)

theorem local_emitTag : m.emitTag.IsLocal k m (m.upTo k).emitTag := by
  unfold emitTag
  rw [finishAttribute_upTo]
  have hposition := position_finishAttribute m
  have hname := rawName_finishAttribute m
  generalize m.finishAttribute = m' at hposition hname
  rintro _ _ _ ⟨⟩
  refine ⟨Nat.le_of_eq hposition.symm, fun h name hnext => ?_, fun _ => rfl⟩
  simp only at hnext
  split at hnext
  · next hraw =>
    obtain rfl := Option.some_inj.1 hnext
    exact ((Bool.and_eq_true _ _).mp hraw).2
  · exact h name (hname ▸ hnext)

/-! ### Reading a character -/

theorem placed_upTo (h : Placed m.text m.position m.held m.current) (hk : m.position ≤ k) :
    Placed (m.upTo k).text (m.upTo k).position (m.upTo k).held (m.upTo k).current := by
  refine ⟨?_, fun hheld => ?_⟩
  · show m.position ≤ (m.text.take k).length
    rw [List.length_take]
    exact Nat.le_min.2 ⟨hk, h.position_le⟩
  · obtain ⟨hpos, c, hcurrent, hc⟩ := h.back hheld
    refine ⟨hpos, c, hcurrent, ?_⟩
    show (m.text.take k)[m.position - 1]? = some c
    rw [List.getElem?_take_of_lt (by omega), hc]

variable {c : Char} {p : Nat}

theorem Reads.position_le (h : m.Reads c p) : m.position ≤ p := by
  have hread := h.read
  unfold Cursor.read at hread
  split at hread
  · exact Nat.le_of_eq (congrArg (·.2.position) hread)
  · split at hread
    · exact Nat.le_trans (Nat.le_succ _) (Nat.le_of_eq (congrArg (·.2.position) hread))
    · cases hread

/-- A character that is read before a position is read in the text up to there. -/
theorem Reads.upTo (h : m.Reads c p) (hplaced : Placed m.text m.position m.held m.current)
    (hk : p ≤ k) : (m.upTo k).Reads c p := by
  have hread : (m.upTo k).read =
      (some c, { m.upTo k with position := p, held := false, current := some c }) := by
    have hread := h.read
    unfold Cursor.read at hread ⊢
    split at hread
    · next hheld =>
      obtain ⟨hcurrent, hnext⟩ := Prod.mk.inj hread
      obtain rfl : m.position = p := congrArg position hnext
      have hlast : (m.upTo k).current = some c := hcurrent
      rw [if_pos (show (m.upTo k).held = true from hheld), hlast]
      rfl
    · next hheld =>
      split at hread
      · next d hd =>
        obtain ⟨hcurrent, hnext⟩ := Prod.mk.inj hread
        obtain rfl := Option.some_inj.1 hcurrent
        obtain rfl : m.position + 1 = p := congrArg position hnext
        have hd' : (m.upTo k).text[(m.upTo k).position]? = some d := by
          show (m.text.take k)[m.position]? = some d
          rw [List.getElem?_take_of_lt (by omega), hd]
        rw [if_neg (show ¬ (m.upTo k).held = true from hheld), hd']
        exact congrArg (fun next : Cursor => (some d, next.upTo k)) hnext
      · cases hread
  rcases read_cases (placed_upTo hplaced (Nat.le_trans h.position_le hk)) with
    ⟨_, hnone⟩ | ⟨d, q, hreads⟩
  · rw [hread] at hnone
    cases hnone
  · have heq := hreads.read.symm.trans hread
    obtain ⟨hd, hnext⟩ := Prod.mk.inj heq
    obtain rfl := Option.some_inj.1 hd
    obtain rfl : q = p := congrArg position hnext
    exact hreads

theorem Reads.unread_upTo (h : m.Reads c p) (hplaced : Placed m.text m.position m.held m.current)
    (hk : p ≤ k) : (m.upTo k).unread = c :: (m.text.take k).drop p :=
  (h.upTo hplaced hk).unread

/-- A pass that goes on with a character has read it. -/
theorem exists_reads (h : Placed m.text m.position m.held m.current) {last : Cursor → List Token}
    {next : Char → Cursor → Pass} {tokens : List Token} {n : Nat} {cursor : Cursor}
    (hpass : (match m.read with
      | (none, m) => Pass.finish (last m)
      | (some c, m) => next c m) = .advance tokens n cursor) :
    ∃ c p, m.Reads c p ∧
      next c { m with position := p, held := false, current := some c } = .advance tokens n cursor := by
  rcases read_cases h with ⟨-, hread⟩ | ⟨c, p, hread⟩
  · rw [hread] at hpass
    cases hpass
  · rw [hread.read] at hpass
    exact ⟨c, p, hread, hpass⟩

/-- A pass that reads a character and then goes on without looking ahead. -/
theorem local_read (h : Placed m.text m.position m.held m.current) {last : Cursor → List Token}
    {next : Char → Cursor → Pass} (hnext : ∀ c m, (next c m).IsLocal k m (next c (m.upTo k))) :
    Pass.IsLocal k m
      (match m.read with
        | (none, m) => .finish (last m)
        | (some c, m) => next c m)
      (match (m.upTo k).read with
        | (none, m) => .finish (last m)
        | (some c, m) => next c m) := by
  intro tokens n cursor hpass
  obtain ⟨c, p, hread, hpass⟩ := exists_reads h hpass
  obtain ⟨hposition, hname, hshort⟩ := hnext _ _ _ _ _ hpass
  refine ⟨Nat.le_trans hread.position_le hposition, hname, fun hbefore => ?_⟩
  rw [(hread.upTo h (Nat.le_trans hposition hbefore.position_le)).read]
  exact hshort hbefore

/-- A pass that leaps over a run of characters, if there is one. -/
theorem local_run {stop : Char → Bool} {state : State} (take : Cursor → Text → Cursor)
    {other other' : Pass}
    (htake : ∀ m run, (take m run).position = m.position + run.length ∧
      (take m run).rawName = m.rawName ∧ take (m.upTo k) run = (take m run).upTo k)
    (hother : other.IsLocal k m other') :
    Pass.IsLocal k m
      (match m.run? .leaping stop with
        | some run => (take m run).enter state
        | none => other)
      (match (m.upTo k).run? .leaping stop with
        | some run => (take (m.upTo k) run).enter state
        | none => other') := by
  have hrun : ∀ n, (m.ahead.takeWhile (!stop ·)).length ≤ n →
      ((m.ahead.take n).takeWhile (!stop ·)) = m.ahead.takeWhile (!stop ·) :=
    fun n hn => takeWhile_take hn
  rintro tokens n cursor hpass
  split at hpass
  · next run hleap =>
    obtain ⟨hposition, hname, hupTo⟩ := htake m run
    cases hpass
    refine ⟨by rw [hposition]; exact Nat.le_add_right _ _, .congr hname, fun hbefore => ?_⟩
    have hle := hbefore.position_le
    rw [hposition] at hle
    unfold run? at hleap
    obtain ⟨hfree, rfl⟩ := Option.ite_none_right_eq_some.1 hleap |>.imp_right Option.some_inj.1
    have hleap' : (m.upTo k).run? .leaping stop = some (m.ahead.takeWhile (!stop ·)) := by
      unfold run?
      rw [ahead_upTo, hrun _ (by omega)]
      exact if_pos hfree
    rw [hleap']
    exact congrArg (enter · state) hupTo
  · next hstay =>
    obtain ⟨hposition, hname, hshort⟩ := hother _ _ _ hpass
    refine ⟨hposition, hname, fun hbefore => ?_⟩
    have hstay' : (m.upTo k).run? .leaping stop = none := by
      unfold run? at hstay ⊢
      simp only [ite_eq_right_iff, reduceCtorEq, imp_false, Bool.and_eq_true, Bool.not_eq_true',
        decide_eq_true_eq, not_and, not_not] at hstay ⊢
      intro hleap
      have hnil := hstay hleap
      rw [ahead_upTo, hrun _ (by rw [hnil]; exact Nat.zero_le _), hnil]
    rw [hstay']
    exact hshort hbefore

/-! ### The states -/

theorem local_leapData : m.leapData.IsLocal k m (m.upTo k).leapData := by
  rintro tokens n next hpass
  unfold leapData at hpass ⊢
  split at hpass
  · next before rest hcut =>
    cases hpass
    refine ⟨Nat.le_add_right _ _, id, fun hbefore => ?_⟩
    have hle : m.position + (before ++ ['<']).length ≤ k := hbefore.position_le
    rw [List.length_append] at hle
    rw [ahead_upTo, Text.cut?_take hcut (by omega)]
    rfl
  · cases hpass

theorem local_data : (m.passData .leaping).IsLocal k m ((m.upTo k).passData .leaping) := by
  unfold passData
  refine local_ite ?_ local_leapData
  rw [show (m.upTo k).current = m.current from rfl]
  cases m.current with
  | none => exact local_finish _ _
  | some c => exact local_ite (local_enter rfl rfl) local_leapData

/-- Data up to a mark. The position may go back by no more than the mark is long. -/
theorem local_leapTo {mark sign : Text} {kind : DataKind} {back : Nat}
    (hback : back ≤ m.position + mark.length) :
    ∀ tokens n next, m.leapTo mark kind sign = .advance tokens n next →
      back ≤ next.position ∧ next.rawName = m.rawName ∧
        (next.position ≤ k → mark <:+: (m.upTo k).ahead ∧
          (m.upTo k).leapTo mark kind sign = .advance tokens n (next.upTo k)) := by
  rintro tokens n next hpass
  unfold leapTo at hpass ⊢
  split at hpass
  · next content rest hcut =>
    cases hpass
    have hposition : (m.skip (content ++ mark)).position =
        m.position + (content.length + mark.length) := by
      rw [← List.length_append]
      rfl
    refine ⟨by show back ≤ (m.skip (content ++ mark)).position; omega, rfl, fun hle => ?_⟩
    have hle : (m.skip (content ++ mark)).position ≤ k := hle
    have hcut' := Text.cut?_take hcut (n := k - m.position) (by omega)
    rw [ahead_upTo]
    refine ⟨⟨content, _, (Text.eq_append_of_cut? hcut').symm⟩, ?_⟩
    rw [hcut']
    rfl
  · cases hpass

theorem local_comment : (m.passComment .leaping).IsLocal k m ((m.upTo k).passComment .leaping) := by
  rintro tokens n next hpass
  obtain ⟨hposition, hname, hshort⟩ := local_leapTo (k := k) (Nat.le_add_right _ _) tokens n next hpass
  exact ⟨hposition, NamesRaw.congr hname, fun hbefore => (hshort hbefore.position_le).2⟩

/-- A leaping cursor that has stepped back to the character that is held back. -/
def stepBack (m : Cursor) : Cursor :=
  if m.held then { m with held := false, position := m.position - 1 } else m

theorem stepBack_upTo (m : Cursor) (k : Nat) : (m.upTo k).stepBack = m.stepBack.upTo k := by
  unfold stepBack upTo
  simp only
  split <;> rfl

theorem ahead_stepBack (m : Cursor) : m.stepBack.ahead = m.unread := by
  unfold stepBack unread
  cases m.held <;> rfl

/-- A directive, or an end tag without a name. What closes it ends a name as well. -/
theorem local_directive {kind : DataKind} {sign : Text} (state : State) :
    (m.passDirective .leaping kind sign state).IsLocal k m
        ((m.upTo k).passDirective .leaping kind sign state) ∧
      ∀ tokens n next, m.passDirective .leaping kind sign state = .advance tokens n next →
        next.position ≤ k → '>' ∈ (m.upTo k).unread := by
  have hpasses : ∀ m : Cursor, m.passDirective .leaping kind sign state =
      if m.held && m.position = 0 then .fail .beforeText
      else m.stepBack.leapTo ['>'] kind sign := fun m => rfl
  have hleap : ∀ tokens n next, m.stepBack.leapTo ['>'] kind sign = .advance tokens n next →
      m.position ≤ next.position ∧ next.rawName = m.rawName ∧
        (next.position ≤ k → '>' ∈ (m.upTo k).unread ∧
          (m.upTo k).stepBack.leapTo ['>'] kind sign = .advance tokens n (next.upTo k)) := by
    have hback : m.position ≤ m.stepBack.position + ['>'].length := by
      unfold stepBack
      split
      · show m.position ≤ m.position - 1 + 1
        omega
      · exact Nat.le_add_right _ _
    have hname : m.stepBack.rawName = m.rawName := by
      unfold stepBack
      split <;> rfl
    have h := @local_leapTo k m.stepBack ['>'] sign kind m.position hback
    rw [hname, ← stepBack_upTo, ahead_stepBack] at h
    intro tokens n next hpass
    obtain ⟨hposition, hname, hshort⟩ := h tokens n next hpass
    refine ⟨hposition, hname, fun hle => ?_⟩
    obtain ⟨hmark, hshort⟩ := hshort hle
    exact ⟨hmark.subset List.mem_cons_self, hshort⟩
  refine ⟨fun tokens n next hpass => ?_, fun tokens n next hpass => ?_⟩
  · rw [hpasses] at hpass ⊢
    split at hpass
    · cases hpass
    · next hheld =>
      obtain ⟨hposition, hname, hshort⟩ := hleap tokens n next hpass
      refine ⟨hposition, NamesRaw.congr hname, fun hbefore => ?_⟩
      rw [if_neg (show ¬ ((m.upTo k).held && decide ((m.upTo k).position = 0)) = true from hheld)]
      exact (hshort hbefore.position_le).2
  · rw [hpasses] at hpass
    split at hpass
    · cases hpass
    · exact fun hle => ((hleap tokens n next hpass).2.2 hle).1

theorem local_leapSection (h : m.position ≤ m.text.length) :
    (m.leapSection sections).IsLocal k m ((m.upTo k).leapSection sections) := by
  rintro tokens n next hpass
  unfold leapSection at hpass
  split at hpass
  · next content rest hcut =>
    cases hpass
    refine ⟨Nat.le_add_right _ _, id, fun hbefore => ?_⟩
    have hle : m.position + (content ++ Config.sectionClosing).length ≤ k := hbefore.position_le
    rw [List.length_append] at hle
    unfold leapSection
    rw [ahead_upTo, Text.cut?_take hcut (by omega)]
    rfl
  · next hcut =>
    cases hpass
    refine ⟨Nat.le_add_right _ _, id, fun hbefore => ?_⟩
    -- Without its end the section takes the whole text, which is not cut then.
    have hle : m.position + m.ahead.length ≤ k := hbefore.position_le
    have hall : m.upTo k = m := by
      unfold upTo
      rw [List.take_of_length_le]
      unfold ahead at hle
      rw [List.length_drop] at hle
      omega
    unfold leapSection
    rw [hall, hcut]
    exact congrArg (fun text => Pass.advance _ _ { m.skip m.ahead with text, pending := [] })
      (congrArg text hall).symm

theorem local_declarationOpen (h : m.position ≤ m.text.length) :
    (m.passDeclarationOpen .leaping sections).IsLocal k m
      ((m.upTo k).passDeclarationOpen .leaping sections) := by
  have hfront : ∀ mark : Text, mark <+: (m.upTo k).ahead ↔
      mark <+: m.ahead ∧ mark.length ≤ k - m.position := fun mark => by
    rw [ahead_upTo, List.prefix_take_iff]
  intro tokens n next hpass
  unfold passDeclarationOpen at hpass ⊢
  by_cases hcomment : "--".toList <+: m.ahead
  · rw [if_pos hcomment] at hpass
    cases hpass
    refine ⟨Nat.le_add_right _ _, id, fun hbefore => ?_⟩
    have hle : m.position + "--".toList.length ≤ k := hbefore.position_le
    rw [if_pos ((hfront _).2 ⟨hcomment, by omega⟩)]
    rfl
  · have hcomment' : ¬ "--".toList <+: (m.upTo k).ahead := fun h => hcomment ((hfront _).1 h).1
    rw [if_neg hcomment] at hpass
    rw [if_neg hcomment']
    by_cases hsection : Config.sectionOpening <+: m.ahead
    · rw [if_pos hsection] at hpass
      have hlength : m.position + Config.sectionOpening.length ≤ m.text.length := by
        have hle := hsection.length_le
        unfold ahead at hle
        rw [List.length_drop] at hle
        have hpos : 0 < Config.sectionOpening.length := by decide
        omega
      obtain ⟨hposition, hname, hshort⟩ :=
        local_leapSection (k := k) (m := m.skip Config.sectionOpening) hlength tokens n next hpass
      have hskip : m.position + Config.sectionOpening.length ≤ next.position := hposition
      refine ⟨by omega, hname, fun hbefore => ?_⟩
      have hle := hbefore.position_le
      rw [if_pos ((hfront _).2 ⟨hsection, by omega⟩)]
      exact hshort hbefore
    · have hsection' : ¬ Config.sectionOpening <+: (m.upTo k).ahead := fun h =>
        hsection ((hfront _).1 h).1
      rw [if_neg hsection] at hpass
      rw [if_neg hsection']
      exact local_enter rfl rfl _ _ _ hpass

/-- Raw text ends where its end tag stands up to the end of the name. -/
theorem local_rawText (hfree : m.held = false) (hnames : m.NamesRaw) :
    (m.passRawText .leaping).IsLocal k m ((m.upTo k).passRawText .leaping) := by
  intro tokens n next hpass
  unfold passRawText at hpass ⊢
  rw [show (m.upTo k).rawName = m.rawName from rfl]
  cases hname : m.rawName with
  | none =>
    rw [hname] at hpass
    cases hpass
  | some name =>
    rw [hname] at hpass
    simp only at hpass ⊢
    split at hpass
    · next raw rest hend =>
      obtain ⟨rfl, rfl, hnext⟩ := Pass.advance.inj hpass
      have hposition : next.position = m.position + (raw.length + 2) := hnext ▸ rfl
      have hahead : next.ahead = rest := by
        rw [ahead, show next.text = m.text from hnext ▸ rfl, hposition, ← List.drop_drop,
          show m.text.drop m.position = _ from Config.eq_append_of_rawEnd? hend, ← List.drop_drop,
          List.drop_left]
        rfl
      refine ⟨by omega, fun _ name h => ?_, fun hbefore => ?_⟩
      · rw [← hnext] at h
        cases h
      have hle := hbefore.position_le
      -- The cursor goes on with the end tag, so that the end of its name stands before the position.
      have hends : ∃ c ∈ rest.take (k - (m.position + (raw.length + 2))), endsName c = true := by
        have hends := hbefore.ends .endTagOpen rfl rfl
        rwa [unread_of_free (show (next.upTo k).held = false from hnext ▸ hfree), ahead_upTo, hahead,
          hposition] at hends
      rw [← Nat.sub_sub] at hends
      have hrest := beginsWithName_take (isLatin_of_isRawText (hnames name hname))
        (beginsWithName_of_rawEnd? hend) hends
      rw [ahead_upTo, rawEnd?_take hend (by omega) hrest, ← hnext]
      rfl
    · cases hpass

theorem local_tagOpen (h : Placed m.text m.position m.held m.current) :
    m.passTagOpen.IsLocal k m (m.upTo k).passTagOpen :=
  local_read h fun _ _ => local_ite (local_enter rfl rfl) <| local_ite (local_enter rfl rfl) <|
    local_ite (local_enter rfl rfl) <| local_ite (local_enter rfl rfl) (local_enter rfl rfl)

theorem local_endTagOpen (h : Placed m.text m.position m.held m.current) :
    m.passEndTagOpen.IsLocal k m (m.upTo k).passEndTagOpen :=
  local_read h fun _ _ => local_ite (local_enter rfl rfl) <| local_ite (local_enter rfl rfl)
    (local_enter rfl rfl)

theorem local_tagName (h : Placed m.text m.position m.held m.current) :
    m.passTagName.IsLocal k m (m.upTo k).passTagName :=
  local_read h fun _ _ => local_ite (local_enter rfl rfl) <| local_ite (local_enter rfl rfl) <|
    local_ite local_emitTag (local_enter rfl rfl)

theorem local_beforeAttribute (h : Placed m.text m.position m.held m.current) :
    m.passBeforeAttribute.IsLocal k m (m.upTo k).passBeforeAttribute :=
  local_read h fun _ _ => local_ite (local_enter rfl rfl) <| local_ite (local_enter rfl rfl) <|
    local_ite local_emitTag (local_enter rfl rfl)

theorem local_attributeName (h : Placed m.text m.position m.held m.current) :
    (m.passAttributeName .leaping).IsLocal k m ((m.upTo k).passAttributeName .leaping) :=
  local_run (fun m run => { m.skip run with attributeName := m.attributeName ++ run })
    (fun _ _ => ⟨rfl, rfl, rfl⟩) <| local_read h fun _ _ =>
    local_ite (local_enter rfl rfl) <| local_ite (local_finishAttribute _) <|
      local_ite (local_enter rfl rfl) <| local_ite local_emitTag (local_enter rfl rfl)

theorem local_afterAttributeName (h : Placed m.text m.position m.held m.current) :
    m.passAfterAttributeName.IsLocal k m (m.upTo k).passAfterAttributeName :=
  local_read h fun _ _ => local_ite (local_enter rfl rfl) <| local_ite (local_finishAttribute _) <|
    local_ite (local_enter rfl rfl) <| local_ite local_emitTag <|
      local_startAttribute

theorem local_beforeValue (h : Placed m.text m.position m.held m.current) :
    m.passBeforeValue.IsLocal k m (m.upTo k).passBeforeValue :=
  local_read h fun _ _ => local_ite (local_enter rfl rfl) <| local_ite (local_enter rfl rfl) <|
    local_ite (local_enter rfl rfl) <| local_ite local_emitTag (local_enter rfl rfl)

theorem local_quotedValue {mark : Char} {state : State}
    (h : Placed m.text m.position m.held m.current) :
    (m.passQuotedValue .leaping mark state).IsLocal k m
      ((m.upTo k).passQuotedValue .leaping mark state) :=
  local_run (fun m run => { m.skip run with attributeValue := m.attributeValue ++ run })
    (fun _ _ => ⟨rfl, rfl, rfl⟩) <| local_read h fun _ _ =>
    local_ite (local_finishAttribute _) (local_enter rfl rfl)

theorem local_bareValue (h : Placed m.text m.position m.held m.current) :
    (m.passBareValue .leaping).IsLocal k m ((m.upTo k).passBareValue .leaping) :=
  local_run (fun m run => { m.skip run with attributeValue := m.attributeValue ++ run })
    (fun _ _ => ⟨rfl, rfl, rfl⟩) <| local_read h fun _ _ =>
    local_ite (local_finishAttribute _) <| local_ite local_emitTag (local_enter rfl rfl)

theorem local_selfClosing (h : Placed m.text m.position m.held m.current) :
    m.passSelfClosing.IsLocal k m (m.upTo k).passSelfClosing :=
  local_read h fun _ _ => local_ite local_emitTag (local_enter rfl rfl)

/-- A pass in any state of a leaping cursor. -/
theorem local_pass {text : Text} {state : State} (h : m.Sound .leaping text state)
    (hnames : m.NamesRaw) :
    (m.pass .leaping sections state.code).IsLocal k m
      ((m.upTo k).pass .leaping sections state.code) := by
  unfold pass
  rw [State.ofCode?_code]
  cases state with
  | data => exact local_data
  | tagOpen => exact local_tagOpen h.placed
  | endTagOpen => exact local_endTagOpen h.placed
  | tagName => exact local_tagName h.placed
  | beforeAttribute => exact local_beforeAttribute h.placed
  | attributeName => exact local_attributeName h.placed
  | afterAttributeName => exact local_afterAttributeName h.placed
  | beforeValue => exact local_beforeValue h.placed
  | doubleValue | singleValue => exact local_quotedValue h.placed
  | bareValue => exact local_bareValue h.placed
  | selfClosing => exact local_selfClosing h.placed
  | declarationOpen => exact local_declarationOpen h.placed.position_le
  | comment => exact local_comment
  | declaration => exact (local_directive .declaration).1
  | instruction => exact (local_directive .instruction).1
  | bogusComment => exact (local_directive .bogusComment).1
  | rawText => exact local_rawText (h.free rfl) hnames
  | markedSection => exact absurd h.fits.1 (by decide)

/-! ### Names that come to an end -/

/-- The name of a tag comes to an end before a position where the tag does. -/
theorem ends_tagName (h : Placed m.text m.position m.held m.current) {tokens : List Token} {n : Nat}
    {next : Cursor} (hpass : m.passTagName = .advance tokens n next) (hbefore : next.Before k n) :
    ∃ c ∈ (m.upTo k).unread, endsName c = true := by
  obtain ⟨c, p, hread, hpass⟩ := exists_reads h hpass
  have hposition : p ≤ next.position := by
    split at hpass
    · cases hpass
      exact le_rfl
    · split at hpass
      · cases hpass
        exact le_rfl
      · split at hpass
        · exact (local_emitTag (k := k) _ _ _ hpass).1
        · cases hpass
          exact le_rfl
  have hunread := hread.unread_upTo h (Nat.le_trans hposition hbefore.position_le)
  rw [hunread]
  by_cases hc : endsName c = true
  · exact ⟨c, List.mem_cons_self, hc⟩
  · have hnot : ¬ isSpace c = true ∧ c ≠ '/' ∧ c ≠ '>' := by
      simpa [endsName, and_assoc] using hc
    rw [if_neg hnot.1, if_neg hnot.2.1, if_neg hnot.2.2] at hpass
    cases hpass
    obtain ⟨d, hd, hends⟩ := hbefore.ends .tagName rfl rfl
    exact ⟨d, List.mem_cons_of_mem _ hd, hends⟩

/-- So does that of an end tag, or what closes the end tag without one. -/
theorem ends_endTagOpen (h : Placed m.text m.position m.held m.current) {tokens : List Token} {n : Nat}
    {next : Cursor} (hpass : m.passEndTagOpen = .advance tokens n next) (hbefore : next.Before k n) :
    ∃ c ∈ (m.upTo k).unread, endsName c = true := by
  obtain ⟨c, p, hread, hpass⟩ := exists_reads h hpass
  have hunread : next.position = p → (m.upTo k).unread = c :: (m.text.take k).drop p := fun hposition =>
    hread.unread_upTo h (hposition ▸ hbefore.position_le)
  split at hpass
  · cases hpass
    obtain ⟨d, hd, hends⟩ := hbefore.ends .tagName rfl rfl
    rw [hunread rfl]
    exact ⟨d, List.mem_cons_of_mem _ hd, hends⟩
  · split at hpass
    · next hc =>
      cases hpass
      rw [hunread rfl]
      exact ⟨c, List.mem_cons_self, by rw [hc]; rfl⟩
    · cases hpass
      -- The character is held back, and so it is still unread.
      obtain ⟨d, hd, hends⟩ := hbefore.ends .bogusComment rfl rfl
      have hback : (m.text.take k).drop (p - 1) = c :: (m.text.take k).drop p :=
        (hread.upTo h hbefore.position_le).back
      refine ⟨d, ?_, hends⟩
      rw [hunread rfl, ← hback]
      exact hd

/-- A cursor that comes before a position is before it. -/
theorem before_of_pass {text : Text} {state : State} (h : m.Sound .leaping text state)
    (hnames : m.NamesRaw) {tokens : List Token} {n : Nat} {next : Cursor}
    (hpass : m.pass .leaping sections state.code = .advance tokens n next) (hbefore : next.Before k n) :
    m.Before k state.code := by
  refine ⟨?_, fun state' hcode hawaits => ?_⟩
  · exact Nat.le_trans (local_pass (k := k) h hnames _ _ _ hpass).1 hbefore.position_le
  · obtain rfl := State.code_injective hcode
    unfold pass at hpass
    rw [State.ofCode?_code] at hpass
    cases state with
    | endTagOpen => exact ends_endTagOpen h.placed hpass hbefore
    | tagName => exact ends_tagName h.placed hpass hbefore
    | bogusComment =>
      have hclose := (local_directive .bogusComment).2 _ _ _ hpass hbefore.position_le
      exact ⟨'>', hclose, rfl⟩
    | _ => cases hawaits

/-! ### Runs of a cursor -/

variable {text : Text} {passes n : Nat} {front : List Token}

theorem Reaches.namesRaw (h : Reaches .leaping sections text passes n m front) : m.NamesRaw := by
  induction h with
  | start => exact fun name h => (nomatch h)
  | pass h hpass ih =>
    obtain ⟨state, rfl, hsound, -, -⟩ := h.sound
    exact (local_pass (k := 0) hsound ih _ _ _ hpass).2.1 ih

/-- What a cursor comes to before a position it comes to in the text up to there. -/
theorem Reaches.upTo (h : Reaches .leaping sections text passes n m front) (hbefore : m.Before k n) :
    Reaches .leaping sections (text.take k) passes n (m.upTo k) front := by
  induction h with
  | start => exact .start
  | pass h hpass ih =>
    obtain ⟨state, rfl, hsound, -, -⟩ := h.sound
    have hnames := h.namesRaw
    exact (ih (before_of_pass hsound hnames hpass hbefore)).pass
      ((local_pass hsound hnames _ _ _ hpass).2.2 hbefore)

/-- **A text in two parts.** Where a cursor is in character data with nothing that waits and nothing
held back, the text can be cut. What the cursor has given out are the tokens of the text before its
position, without the end of the input; and with those of the text behind, they are the tokens of the
whole text. -/
theorem tokens_split (h : Reaches .leaping sections text passes State.data.code m front)
    (hpending : m.pending = []) (hfree : m.held = false) :
    Scanner.tokens (text.take m.position) sections = front ++ [.endOfInput] ∧
      Scanner.tokens text sections = front ++ Scanner.tokens (text.drop m.position) sections := by
  obtain ⟨state, hcode, hsound, -, htokens⟩ := h.sound
  obtain rfl := State.code_injective hcode
  constructor
  · have hbefore : m.Before m.position State.data.code := by
      refine ⟨le_rfl, fun state hcode hawaits => ?_⟩
      obtain rfl := State.code_injective hcode
      cases hawaits
    have hlast : (m.upTo m.position).pass .leaping sections State.data.code =
        .finish [.endOfInput] := by
      have hahead : (m.upTo m.position).ahead = [] := by
        rw [ahead_upTo, Nat.sub_self, List.take_zero]
      have hheld : ¬ (m.upTo m.position).held = true := fun hheld => elim_held hfree hheld
      rw [show (m.upTo m.position).pass .leaping sections State.data.code = _ from if_neg hheld]
      unfold leapData
      rw [hahead]
      show Pass.finish (flush (m.pending ++ []) ++ [.endOfInput]) = _
      rw [hpending]
      rfl
    exact ((h.upTo hbefore).tokens_of_finish hlast).symm
  · have hconfig : m.config .data = ⟨.data, [], text.drop m.position⟩ := by
      rw [config, hpending, unread_of_free hfree, ahead, hsound.text]
    rw [htokens, hconfig]
    rfl

/-- Behind a comment character data begin, and the text can be cut there. -/
theorem tokens_split_comment :
    Scanner.tokens "<!--a-->".toList false = [.data .comment ['a']] ++ [.endOfInput] ∧
      Scanner.tokens "<!--a--><b>".toList false =
        [.data .comment ['a']] ++ Scanner.tokens "<b>".toList false := by
  have hreaches : Reaches .leaping false "<!--a--><b>".toList (0 + 1 + 1 + 1 + 1) State.data.code
      { text := "<!--a--><b>".toList, position := 8, current := some '!' }
      ([] ++ [] ++ [] ++ [] ++ [.data .comment ['a']]) :=
    .pass (.pass (.pass (.pass .start rfl) rfl) rfl) rfl
  exact tokens_split hreaches rfl rfl

end Cursor
end Scanner
end MarkupBinding
