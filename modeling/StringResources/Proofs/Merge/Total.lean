import StringResources.Proofs.Merge.Readable
import StringResources.Proofs.Resource.Located
import StringResources.Proofs.Resource.Grammar

/-! Readings that do not go wrong. A text without a byte order mark is cut between its tokens only, and each end tag
    that is read closes an element that is open, for the depth of the reading is the number of open elements. So the
    reading is never torn and never stops at an end tag without an element. Main statement: `parse_safe`, a text and
    what is made from its document. -/

namespace StringResources

namespace Parse

/-- What can stop the reading of a text without a byte order mark: no torn span and no end tag without an element. -/
def Stop.Proper : Stop → Prop
  | .fault _ cause => cause ≠ .strayClose
  | .torn => False

theorem document_proper {path t : Text} (ht : Unmarked t) {stop : Stop} (h : document path t = .error stop) :
    stop.Proper := by
  obtain ⟨n, cause, rfl, hat⟩ := document_error ht h
  rintro rfl
  exact hat

end Parse

open Markup Parse Render

theorem ParseError.Cause.message_eq_iff {cause : ParseError.Cause} :
    cause.message = "unexpected end tag".toList ↔ cause = .strayClose := by
  constructor
  · intro h
    -- All messages but one begin with another letter.
    have hhead : cause.message.head? = some 'u' := by
      rw [h]
      rfl
    cases cause
    case strayClose => rfl
    case openRoot => exact absurd h (by decide)
    all_goals first | cases hhead | (rename_i e; cases e <;> cases hhead)
  · rintro rfl
    rfl

/-- A text without a byte order mark is read as a document, or there is an error that is not about an end tag. -/
theorem parse_total {path t : Text} (ht : Unmarked t) :
    (∃ d, parse path t = .ok d) ∨
      ∃ e, parse path t = .error (.error e) ∧ e.cause.message ≠ "unexpected end tag".toList := by
  unfold parse
  rcases hdocument : Parse.document path t with (⟨offset, cause⟩ | _) | d
  · refine Or.inr ⟨_, rfl, fun hmessage => ?_⟩
    exact document_proper ht hdocument (ParseError.Cause.message_eq_iff.mp hmessage)
  · exact (document_proper ht hdocument).elim
  · exact Or.inl ⟨d, rfl⟩

/-- What is left of the text before the end tag of a root without the blanks at its end goes on to the end of the start
    tag. -/
theorem rootOpen_stop_le_of_parse {path t : Text} (ht : Unmarked t) {d : Document} (h : parse path t = .ok d)
    {start : Nat} (hclose : d.rootClose = .endTag start) :
    ∃ before, Text.slice? t 0 start = some before ∧
      d.rootOpen.stop ≤ (Text.trimEnd Text.isIndent before).size := by
  obtain ⟨out, hrender⟩ := exists_render ht h [[]] {}
  obtain ⟨opening, tag, body, blanks, rest, hparts⟩ := exists_parts_of_render hclose (by simp) hrender
  have htext : t = [] ++ ((opening ++ (tag ++ body)) ++ blanks ++ rest) := by
    rw [← text_of_parse h, hparts.text]
    simp
  obtain rfl := RootClose.endTag.inj (hclose.symm.trans hparts.rootClose)
  refine ⟨(opening ++ (tag ++ body)) ++ blanks, slice?_of_eq [] rest htext rfl (by simp), ?_⟩
  rw [Text.trimEnd_append_of_all hparts.isIndent, hparts.trimmed, hparts.rootOpen]
  simp [spanAfter]

/-- Nothing goes wrong with a text without a byte order mark. Its reading ends with a document or with an error that is
    not about an end tag. After any tokens the depth is the number of open elements, those against which the end tags
    that follow are held. To a document elements can be added in any style: all the cuts that this takes fall between
    characters and in order. -/
theorem parse_safe {path t : Text} (ht : Unmarked t) :
    ((∃ d, parse path t = .ok d) ∨
      ∃ e, parse path t = .error (.error e) ∧ e.cause.message ≠ "unexpected end tag".toList) ∧
    (∀ ks rest s, (Markup.read t).tokens = ks ++ rest → ks.foldlM (step t) {} = .ok s →
      s.depth = (openNames [] ks).length ∧
      ∃ ls, (scan t).tokens = ks ++ ls ∧ (matched (scan t).fault (openNames [] ks) ls).tokens = rest) ∧
    ∀ d, parse path t = .ok d →
      (∀ elements style, ∃ out, render d elements style = some out) ∧
      ∀ start, d.rootClose = .endTag start → ∃ before, Text.slice? t 0 start = some before ∧
        d.rootOpen.stop ≤ (Text.trimEnd Text.isIndent before).size := by
  refine ⟨parse_total ht, fun ks rest s htokens hs => ⟨?_, ?_⟩, fun d hd => ⟨exists_render ht hd, fun start => ?_⟩⟩
  · rw [length_openNames]
    exact (foldlM_kept hs).depth
  · rw [Markup.read, withoutMark_eq ht] at htokens
    exact matched_of_tokens_append htokens
  · exact rootOpen_stop_le_of_parse ht hd

theorem parse_safe_nested :
    Unmarked nested ∧ parse [] nested = .ok nestedDocument ∧
      ∃ out, render nestedDocument ["<string name=\x22l\x22/>".toList] { mark := true } = some out := by
  have ht : Unmarked nested := by decide
  obtain ⟨-, -, hrender⟩ := @parse_safe [] nested ht
  obtain ⟨hrender, -⟩ := hrender nestedDocument parse_nested
  exact ⟨ht, parse_nested, hrender _ _⟩

end StringResources
