import StringResources.Proofs.Resource.Stops
import StringResources.Proofs.Text.Located

/-! Where errors are reported. Each error is at an offset between characters that its cause determines (`At`), and so
    on a line of the text, and the location tells the offset. Main statements: `document_error` and
    `parse_error_location`. -/

namespace StringResources
open Markup Parse Text

/-! ### Places of tokens -/

/-- The start of a token of a text, or of what stands where no token can be read. -/
def StartsToken (t : Text) (n : Nat) : Prop :=
  ∃ ks rest, t = sources ks ++ rest ∧ rest ≠ [] ∧ ks <+: (scan t).tokens ∧ n = (sources ks).size

/-- The bracket that closes a document type without a name, which stands where no token can be read. -/
def ClosesNameless (t : Text) (n : Nat) : Prop :=
  ∃ content rest, t = sources (scan t).tokens ++ ('<' :: '!' :: (content ++ '>' :: rest)) ∧ Nameless content ∧
    n = (sources (scan t).tokens ++ '<' :: '!' :: content).size

/-- An offset is where a text has what causes an error. A text is always valid, and in one without a byte order mark no
    end tag is without an element. -/
def ParseError.Cause.At (t : Text) (n : Nat) : ParseError.Cause → Prop
  | .markup .namelessDoctype => ClosesNameless t n
  | .openRoot => n = t.size
  | .noRoot => n = 0
  | .notUtf8 => False
  | .strayClose => False
  | _ => StartsToken t n

section At
variable {t : Text} {n : Nat} {cause : ParseError.Cause}

theorem StartsToken.boundary (h : StartsToken t n) : Boundary t n := by
  obtain ⟨ks, rest, ht, -, -, rfl⟩ := h
  exact ⟨sources ks, rest, ht, rfl⟩

theorem ClosesNameless.boundary (h : ClosesNameless t n) : Boundary t n := by
  obtain ⟨content, rest, ht, -, rfl⟩ := h
  exact ⟨_, '>' :: rest, by simpa using ht, rfl⟩

theorem ParseError.Cause.At.boundary (h : cause.At t n) : Boundary t n := by
  cases cause with
  | markup e =>
    cases e
    case namelessDoctype => exact ClosesNameless.boundary h
    all_goals exact StartsToken.boundary h
  | openRoot =>
    obtain rfl : n = t.size := h
    exact boundary_size t
  | noRoot =>
    obtain rfl : n = 0 := h
    exact boundary_zero t
  | notUtf8 => exact h.elim
  | strayClose => exact h.elim
  | _ => exact StartsToken.boundary h

theorem ParseError.Cause.OfToken.at_of_startsToken (hcause : cause.OfToken) (h : StartsToken t n) : cause.At t n := by
  cases cause <;> first | exact h | exact hcause.elim

theorem at_markup_of_startsToken {e : Markup.Error} (he : e ≠ .namelessDoctype) (h : StartsToken t n) :
    (ParseError.Cause.markup e).At t n := by
  cases e <;> first | exact h | exact absurd rfl he

theorem startsToken_of_append {pre post : List Token} {k : Token} (h : (scan t).tokens = pre ++ k :: post) :
    StartsToken t (sources pre).size := by
  obtain ⟨rest, hrest, -⟩ := scan_source t
  have ht : t = sources pre ++ (k.source ++ (sources post ++ rest)) := by
    have : t = sources (scan t).tokens ++ rest := hrest
    rw [h, sources_append, sources_cons] at this
    simpa using this
  have hne : k.source ≠ [] := source_ne_nil_of_mem_scan (t := t) (by rw [h]; simp)
  exact ⟨pre, _, ht, by simp [hne], ⟨k :: post, h.symm⟩, rfl⟩

end At

namespace Parse

/-! ### What ends a reading -/

section Read
variable {t : Text}

theorem read_tokens_prefix (ht : Unmarked t) : (read t).tokens <+: (scan t).tokens := by
  obtain ⟨ks, hks, -⟩ := @matched_of_tokens_append (scan t).fault [] (read t).tokens (scan t).tokens []
    (by rw [Markup.read, withoutMark_eq ht, List.append_nil])
  exact ⟨ks, hks.symm⟩

theorem exists_sources_read (ht : Unmarked t) : ∃ rest, t = sources (read t).tokens ++ rest := by
  obtain ⟨ks, hks⟩ := read_tokens_prefix ht
  obtain ⟨rest, hrest, -⟩ := scan_source t
  refine ⟨sources ks ++ rest, ?_⟩
  rw [← List.append_assoc, ← sources_append, hks]
  exact hrest

/-- A fault of the tokens is where they end. -/
theorem at_of_read_fault (ht : Unmarked t) {fault : Fault} (h : (read t).fault = some fault) :
    (ParseError.Cause.markup fault.error).At t ((sources (read t).tokens).size + fault.offset) := by
  rw [Markup.read, withoutMark_eq ht] at h ⊢
  rcases matched_fault h with ⟨hscan, htokens⟩ | ⟨⟨hoffset, herror⟩, written, post, hclose⟩
  · rw [htokens]
    obtain ⟨rest, hrest, hnext⟩ := scan_fault hscan
    rcases next_error hnext with hworded | ⟨content, r, rfl, hnameless, rfl, -⟩
    · rw [hworded.1]
      refine at_markup_of_startsToken hworded.ne_namelessDoctype ⟨_, rest, hrest, ?_, List.prefix_rfl, rfl⟩
      rintro rfl
      cases hnext
    · refine ⟨content, r, hrest, hnameless, ?_⟩
      have hopen : size ('<' :: '!' :: content) = content.size + 2 := by
        rw [size_cons, size_cons, show Char.utf8Size '<' = 1 from rfl, show Char.utf8Size '!' = 1 from rfl]
        omega
      rw [size_append, hopen]
  · rw [hoffset]
    refine at_markup_of_startsToken ?_ (startsToken_of_append hclose)
    rcases herror with ⟨expected, found, herror⟩ | ⟨found, herror⟩ <;> simp [herror]

/-- What ends the reading of a text without a byte order mark is an error where its cause is. -/
theorem document_error {path : Text} (ht : Unmarked t) {stop : Stop} (h : document path t = .error stop) :
    ∃ n cause, stop = .fault n cause ∧ cause.At t n := by
  obtain ⟨rest, hrest⟩ := exists_sources_read ht
  rcases document_eq_error_iff.mp h with hrun | ⟨s, -, ⟨-, rfl⟩ | ⟨-, -, rfl⟩⟩
  · rcases run_eq_error_iff.mp hrun with hfold | ⟨s, fault, hs, hfault, rfl⟩
    · have hopen : ∀ pre written post, (read t).tokens = pre ++ .close written :: post → level 0 pre ≠ 0 := by
        intro pre written post hks hlevel
        have hne := @openNames_ne_nil _ [] pre _ post written hks
        exact hne (List.length_eq_zero_iff.mp ((length_openNames [] pre).trans hlevel))
      have hstarts : ∀ pre k post, (read t).tokens = pre ++ k :: post → StartsToken t (size ([] ++ sources pre)) := by
        intro pre k post hks
        obtain ⟨ls, hls⟩ := read_tokens_prefix ht
        exact @startsToken_of_append t pre (post ++ ls) k (by rw [← hls, hks]; simp)
      obtain ⟨n, hn, cause, rfl, hcause⟩ := @foldlM_error t [] rest {} stop (StartsToken t) (read t).tokens hrest
        ⟨rfl, by simp⟩ hopen hstarts (by simp) hfold
      exact ⟨n, cause, rfl, hcause.at_of_startsToken hn⟩
    · have hoffset : s.offset = (sources (read t).tokens).size := by
        rw [(foldlM_kept hs).offset]
        exact Nat.zero_add _
      refine ⟨_, _, rfl, ?_⟩
      rw [hoffset]
      exact at_of_read_fault ht hfault
  · exact ⟨_, _, rfl, rfl⟩
  · exact ⟨_, _, rfl, rfl⟩

end Read

end Parse

/-- Locations are in the order of the offsets between characters, so they tell them apart, and past the end they are
    that of the end. An error of a text without a byte order mark is located at the offset where its cause is, which is
    between characters: on a line of the text, at most one column past its characters. -/
theorem parse_error_location (t : Text) :
    (∀ m n, Boundary t m → Boundary t n →
      (t.location m < t.location n ↔ m < n) ∧ (t.location m = t.location n ↔ m = n)) ∧
    (∀ n, t.size ≤ n → t.location n = t.location t.size) ∧
    ∀ path failure, Unmarked t → parse path t = .error failure →
      ∃ e n, failure = .error e ∧ e.path = path ∧ e.location = t.location n ∧ Boundary t n ∧ e.cause.At t n ∧
        1 ≤ e.location.line ∧ 1 ≤ e.location.column ∧
        ∃ line, (splitOn '\n' t)[e.location.line - 1]? = some line ∧ e.location.column ≤ line.length + 1 := by
  refine ⟨fun m n hm hn => ⟨location_lt_iff hm hn, location_inj hm hn⟩, fun n => location_of_size_le, ?_⟩
  intro path failure ht h
  unfold parse at h
  split at h
  · cases h
  · next offset cause hstop =>
    cases h
    obtain ⟨n, cause', hfault, hat⟩ := document_error ht hstop
    cases hfault
    exact ⟨_, offset, rfl, rfl, rfl, hat.boundary, hat, exists_line hat.boundary⟩
  · next hstop =>
    obtain ⟨n, cause, hfault, -⟩ := document_error ht hstop
    cases hfault

/-- An entry without a name after two characters of two bytes each: its error is at the third character of its line. -/
theorem parse_error_location_unnamed :
    Unmarked "<resources>\n\u00e9\u00e9<string/></resources>".toList ∧
      parse [] "<resources>\n\u00e9\u00e9<string/></resources>".toList =
        .error (.error { path := [], location := { line := 2, column := 3 }, cause := .unnamed .string }) ∧
      ∃ n, { line := 2, column := 3 } = location "<resources>\n\u00e9\u00e9<string/></resources>".toList n ∧
        StartsToken "<resources>\n\u00e9\u00e9<string/></resources>".toList n ∧
        Boundary "<resources>\n\u00e9\u00e9<string/></resources>".toList n ∧
        (location "<resources>\n\u00e9\u00e9<string/></resources>".toList n =
            location "<resources>\n\u00e9\u00e9<string/></resources>".toList 16 ↔ n = 16) := by
  have ht : Unmarked "<resources>\n\u00e9\u00e9<string/></resources>".toList := by decide
  have herror : parse [] "<resources>\n\u00e9\u00e9<string/></resources>".toList =
      .error (.error { path := [], location := { line := 2, column := 3 }, cause := .unnamed .string }) := by
    decide +kernel
  have hboundary : Boundary "<resources>\n\u00e9\u00e9<string/></resources>".toList 16 :=
    ⟨"<resources>\n\u00e9\u00e9".toList, "<string/></resources>".toList, by decide, by decide⟩
  obtain ⟨horder, -, hplace⟩ := parse_error_location "<resources>\n\u00e9\u00e9<string/></resources>".toList
  obtain ⟨e, n, he, -, hlocation, hn, hat, -⟩ := hplace [] _ ht herror
  cases he
  exact ⟨ht, herror, n, hlocation, hat, hn, (horder n 16 hn hboundary).2⟩

end StringResources
