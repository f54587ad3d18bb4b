import MarkupBinding.Proofs.Token.CursorScan
import MarkupBinding.Proofs.Tree.Listing

/-!
# A cursor comes to the end of every text

What holds of one pass holds of all that a cursor can come to. Its registers are in order there, twice
the length of the text bounds the passes, and what is left of the scan is what the moment that it
stands for leaves. So a cursor meets none of the faults that a pass may end in, and with either gait it
gives out the tokens of the scan.

* `Cursor.scan_finishes`: it comes to the end, with everything in order on the way, and the builder
  takes in what it has given out.
* `Cursor.scans_walking_iff`: with either gait it gives out the tokens of the text.
-/

namespace MarkupBinding.Scanner

/-- Whether a state is between the opening bracket of a tag and the closing one. -/
def State.isInTag : State → Bool
  | .tagName | .beforeAttribute | .attributeName | .afterAttributeName | .beforeValue | .doubleValue
  | .singleValue | .bareValue | .selfClosing => true
  | _ => false

/-- The tokens that a pass gives out. -/
def Pass.tokens : Pass → List Token
  | .advance tokens _ _ | .finish tokens => tokens
  | .fail _ => []

namespace Cursor

variable {gait : Gait} {sections : Bool} {text : Text} {m : Cursor} {state : State} {passes n : Nat}
  {front : List Token}

/-- A cursor at the beginning of a text is in order, and stands for the beginning of the scan. -/
theorem sound_start (gait : Gait) (text : Text) : Sound gait text .data { text } :=
  ⟨rfl, ⟨Nat.zero_le _, not_held⟩, not_held, trivial⟩

/-- What holds wherever a cursor comes to. -/
theorem Reaches.sound (h : Reaches gait sections text passes n m front) :
    ∃ state : State, n = state.code ∧ m.Sound gait text state ∧
      passes + m.measure state ≤ 2 * text.length ∧
        Scanner.tokens text sections = front ++ (m.config state).run sections := by
  -- What a pass gives out is what the scan gives out between the two moments.
  induction h with
  | start =>
    exact ⟨.data, rfl, sound_start gait text, by simp [measure, State.rank, unread, ahead], rfl⟩
  | pass h hpass ih =>
    obtain ⟨state, rfl, hsound, hpasses, htokens⟩ := ih
    have hfollows := follows_pass sections hsound
    rw [hpass] at hfollows
    obtain ⟨state', rfl, hnext, hmeasure, hrun⟩ := hfollows
    refine ⟨state', rfl, hnext, by omega, ?_⟩
    rw [htokens, hrun, List.append_assoc]

/-- Wherever a cursor comes to, its next pass follows the scan. -/
theorem Reaches.follows (h : Reaches gait sections text passes n m front) :
    ∃ limit moment, (m.pass gait sections n).Follows gait sections text limit moment ∧
      Scanner.tokens text sections = front ++ moment.run sections := by
  obtain ⟨state, rfl, hsound, _, htokens⟩ := h.sound
  exact ⟨_, _, follows_pass sections hsound, htokens⟩

/-- The tokens at the end are those of the text. -/
theorem Reaches.tokens_of_finish {last : List Token} (h : Reaches gait sections text passes n m front)
    (hlast : m.pass gait sections n = .finish last) : front ++ last = Scanner.tokens text sections := by
  obtain ⟨limit, moment, hfollows, htokens⟩ := h.follows
  rw [hlast] at hfollows
  rw [htokens]
  exact congrArg (front ++ ·) (Eq.symm hfollows)

/-- No pass ends in a fault. -/
theorem Reaches.pass_ne_fail (h : Reaches gait sections text passes n m front) (fault : Fault) :
    m.pass gait sections n ≠ .fail fault := by
  obtain ⟨limit, moment, hfollows, _⟩ := h.follows
  intro hfail
  rw [hfail] at hfollows
  exact hfollows

/-- What a pass gives out belongs to the tokens of the text. -/
theorem Reaches.tokens_subset (h : Reaches gait sections text passes n m front) :
    (m.pass gait sections n).tokens ⊆ Scanner.tokens text sections := by
  obtain ⟨limit, moment, hfollows, htokens⟩ := h.follows
  rw [htokens]
  cases hpass : m.pass gait sections n with
  | advance tokens next cursor =>
    rw [hpass] at hfollows
    obtain ⟨state, -, -, -, hrun⟩ := hfollows
    rw [hrun]
    exact fun token htoken => List.mem_append_right _ (List.mem_append_left _ htoken)
  | finish tokens =>
    rw [hpass] at hfollows
    rw [show moment.run sections = tokens from hfollows]
    exact fun token htoken => List.mem_append_right _ htoken
  | fail fault => exact List.nil_subset _

theorem Reaches.passes_le (h : Reaches gait sections text passes n m front) :
    passes ≤ 2 * text.length := by
  obtain ⟨state, _, _, hpasses, _⟩ := h.sound
  omega

/-- From wherever a cursor has come to, it comes to the end. -/
theorem Reaches.exists_finish (h : Reaches gait sections text passes n m front) :
    ∃ passes n m front last, Reaches gait sections text passes n m front ∧
      m.pass gait sections n = .finish last := by
  -- By induction on how many passes are left of those that the length of the text allows.
  induction hleft : 2 * text.length - passes using Nat.strongRecOn generalizing passes n m front with
  | _ left ih =>
    cases hpass : m.pass gait sections n with
    | advance tokens next cursor =>
      have hnext := h.pass hpass
      have hle := hnext.passes_le
      exact ih (2 * text.length - (passes + 1)) (by omega) hnext rfl
    | finish last => exact ⟨passes, n, m, front, last, h, hpass⟩
    | fail fault => exact absurd hpass (h.pass_ne_fail fault)

/-- A cursor comes to the end with the tokens of the text, and with no others. -/
theorem scans_iff (gait : Gait) (sections : Bool) (text : Text) (tokens : List Token) :
    Scans gait sections text tokens ↔ tokens = Scanner.tokens text sections := by
  constructor
  · rintro ⟨passes, n, m, front, last, hreaches, hlast, rfl⟩
    exact hreaches.tokens_of_finish hlast
  · rintro rfl
    have hstart : Reaches gait sections text 0 State.data.code { text } [] := .start
    obtain ⟨passes, n, m, front, last, hreaches, hlast⟩ := hstart.exists_finish
    exact ⟨passes, n, m, front, last, hreaches, hlast, hreaches.tokens_of_finish hlast⟩

/-- Every start tag and every end tag that a pass gives out has a name. -/
theorem Reaches.name_ne_nil {name : Text} {attrs : Attributes}
    (h : Reaches gait sections text passes n m front)
    (htag : .startTag name attrs ∈ (m.pass gait sections n).tokens ∨
      .endTag name attrs ∈ (m.pass gait sections n).tokens) : name ≠ [] := by
  rcases htag with hstart | hend
  · exact (formed_tokens text sections _ (h.tokens_subset hstart)).1.ne_nil
  · exact (formed_tokens text sections _ (h.tokens_subset hend)).1.ne_nil

/-- The registers of a cursor in the state with a number, as they should be. -/
structure InOrder (text : Text) (n : Nat) (m : Cursor) : Prop where
  text_eq : m.text = text
  position_le : m.position ≤ text.length
  isState : ∃ state, State.ofCode? n = some state ∧ state ≠ .markedSection
  rawName : State.ofCode? n = some .rawText → m.rawName ≠ none
  name : ∀ state, State.ofCode? n = some state → state.isInTag = true → m.name ≠ []
  back : m.held = true → 0 < m.position ∧ ∃ c, m.current = some c ∧ text[m.position - 1]? = some c

theorem Sound.inOrder (h : m.Sound .leaping text state) : m.InOrder text state.code := by
  obtain ⟨rfl, hplaced, _, hfits⟩ := h
  refine ⟨rfl, hplaced.position_le, ⟨state, State.ofCode?_code state, ?_⟩, ?_, ?_, hplaced.back⟩
  · rintro rfl
    exact absurd hfits.1 (by decide)
  · intro hraw
    rw [State.ofCode?_code, Option.some_inj] at hraw
    subst hraw
    exact hfits
  · intro state' hstate htag
    rw [State.ofCode?_code, Option.some_inj] at hstate
    subst hstate
    cases state with
    | tagName | beforeAttribute | attributeName | afterAttributeName | beforeValue | doubleValue
    | singleValue | bareValue | selfClosing => exact hfits.1
    | _ => cases htag

/-- **A leaping cursor.** A cursor that leaps comes to the end of every text, in no more passes than
twice the length of the text. Wherever it comes to, its position lies in the text, its state is one of
those of a leaping cursor, raw text has a name, a character that is held back stands right before the
position, and a tag that is given out has a name. No pass ends in a fault, and the builder refuses none
of the tokens. -/
theorem scan_finishes (text : Text) (sections : Bool) :
    (∃ tokens, Scans .leaping sections text tokens) ∧
      (∀ passes n m front, Reaches .leaping sections text passes n m front →
        passes ≤ 2 * text.length ∧ m.InOrder text n ∧
          (∀ fault, m.pass .leaping sections n ≠ .fail fault) ∧
            ∀ name attrs, .startTag name attrs ∈ (m.pass .leaping sections n).tokens ∨
              .endTag name attrs ∈ (m.pass .leaping sections n).tokens → name ≠ []) ∧
      ∀ tokens, Scans .leaping sections text tokens → ∀ collapses,
        ∃ b, tokens.foldlM Builder.accept { collapses } = .ok b ∧
          b.trees = Tree.parse text collapses sections := by
  refine ⟨⟨_, (scans_iff .leaping sections text _).2 rfl⟩, fun passes n m front h => ?_,
    fun tokens htokens collapses => ?_⟩
  · obtain ⟨state, rfl, hsound, _, _⟩ := h.sound
    exact ⟨h.passes_le, hsound.inOrder, h.pass_ne_fail, fun name attrs htag => h.name_ne_nil htag⟩
  · rw [scans_iff] at htokens
    subst htokens
    have hnames : ∀ attrs, .startTag [] attrs ∉ Scanner.tokens text sections := fun attrs hmem =>
      (formed_tokens text sections _ hmem).1.ne_nil rfl
    exact ⟨_, Builder.foldlM_accept _ hnames, rfl⟩

/-- **A walking cursor.** A cursor that walks gives out the tokens that one gives out that leaps, which
are those of the text. -/
theorem scans_walking_iff (text : Text) (sections : Bool) (tokens : List Token) :
    (Scans .walking sections text tokens ↔ Scans .leaping sections text tokens) ∧
      (Scans .leaping sections text tokens ↔ tokens = Scanner.tokens text sections) := by
  rw [scans_iff, scans_iff]
  exact ⟨Iff.rfl, Iff.rfl⟩

end Cursor
end MarkupBinding.Scanner
