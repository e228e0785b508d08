import StringResources.Markup.Token
import StringResources.Text.Blank

/-! Reading a text as tokens. `next` reads one token and gives the rest of the text; `scan` reads to the
    end or to the first fault; `read` also drops a leading byte order mark and holds each end tag against
    the start tags still open. Main statements: `next_source`, a token and the rest it leaves are the text
    that was read, and `scan_source`, no character is lost on the way. -/

namespace StringResources.Markup
open Text

/-! ### One token -/

/-- The content of a tag up to the first closing bracket outside quotes, and what follows the bracket.
    `quote` is the quotation mark that is open. -/
def tagEnd? (quote : Option Char) : Text → Option (Text × Text)
  | [] => none
  | c :: t =>
    match quote with
    | some q => (tagEnd? (if c = q then none else some q) t).map fun (s, r) => (c :: s, r)
    | none =>
      if c = '>' then some ([], t)
      else (tagEnd? (if c = '\x22' ∨ c = '\x27' then some c else none) t).map fun (s, r) => (c :: s, r)

/-- The content of a document type up to the bracket that closes it, and what follows the bracket.
    `depth` is the number of brackets opened inside and not yet closed. -/
def doctypeEnd? (depth : Nat) : Text → Option (Text × Text)
  | [] => none
  | c :: t =>
    if c = '>' then
      match depth with
      | 0 => some ([], t)
      | depth + 1 => (doctypeEnd? depth t).map fun (s, r) => (c :: s, r)
    else (doctypeEnd? (if c = '<' then depth + 1 else depth) t).map fun (s, r) => (c :: s, r)

/-- A fault at the bracket that begins a token. -/
def faultAtStart (e : Error) : Except Fault (Token × Text) := .error { offset := 0, error := e }

/-- The comment whose text follows its opening mark. -/
def nextComment (t : Text) : Except Fault (Token × Text) :=
  match splitAt? Token.commentEnd t with
  | some (content, rest) => .ok (.comment content, rest)
  | none => faultAtStart .openComment

/-- The character data section whose text follows its opening mark. -/
def nextCData (t : Text) : Except Fault (Token × Text) :=
  match splitAt? Token.cdataEnd t with
  | some (content, rest) => .ok (.cdata content, rest)
  | none => faultAtStart .openCData

/-- What follows the keyword of a document type declaration, in either case of each letter. -/
def afterKeyword? : (keyword : Text) → Text → Option Text
  | [], t => some t
  | _ :: _, [] => none
  | a :: keyword, c :: t => if c.toUpper = a then afterKeyword? keyword t else none

/-- The document type whose keyword begins the text. A declaration without a name is faulted at its
    closing bracket. -/
def nextDoctype (t : Text) : Except Fault (Token × Text) :=
  match doctypeEnd? 0 t with
  | none => faultAtStart .openDoctype
  | some (content, rest) =>
    match afterKeyword? "DOCTYPE".toList content with
    | none => faultAtStart .openDoctype
    | some name =>
      if name.all isBlank then .error { offset := Text.size content + 2, error := .namelessDoctype }
      else .ok (.doctype content, rest)

/-- The declaration whose text follows its bracket and exclamation mark. -/
def nextDeclaration : Text → Except Fault (Token × Text)
  | [] => faultAtStart .unknownDeclaration
  | c :: t =>
    if c = '-' then
      match t with
      | '-' :: t => nextComment t
      | _ => faultAtStart .openComment
    else if c = '[' then
      match stripStart? Token.cdataKeyword t with
      | some t => nextCData t
      | none => faultAtStart .openCData
    else if c = 'D' ∨ c = 'd' then nextDoctype (c :: t)
    else faultAtStart .unknownDeclaration

/-- The processing instruction whose text follows its bracket and question mark. Its end may not share
    the question mark of its beginning. -/
def nextInstruction (t : Text) : Except Fault (Token × Text) :=
  match t with
  | '>' :: _ => faultAtStart .openInstruction
  | _ =>
    match splitAt? Token.instructionEnd t with
    | some (content, rest) => .ok (.instruction content, rest)
    | none => faultAtStart .openInstruction

/-- The end tag whose text follows its bracket and slash. -/
def nextClose (t : Text) : Except Fault (Token × Text) :=
  match tagEnd? none t with
  | some (written, rest) => .ok (.close written, rest)
  | none => faultAtStart .openTag

/-- The tag whose text follows its bracket. A slash at the end of its content makes it empty. -/
def nextTag (t : Text) : Except Fault (Token × Text) :=
  match tagEnd? none t with
  | some (content, rest) =>
    match stripEnd? ['/'] content with
    | some content => .ok (.empty (.ofContent content), rest)
    | none => .ok (.start (.ofContent content), rest)
  | none => faultAtStart .openTag

/-- The markup whose text follows its bracket. -/
def nextMarkup (t : Text) : Except Fault (Token × Text) :=
  match t with
  | [] => faultAtStart .openTag
  | c :: r =>
    if c = '!' then nextDeclaration r
    else if c = '?' then nextInstruction r
    else if c = '/' then nextClose r
    else nextTag t

/-- The first token of a text and the text after it. -/
def next (t : Text) : Except Fault (Token × Text) :=
  match t with
  | [] => .ok (.text [], [])
  | c :: r =>
    if c = '<' then nextMarkup r
    else .ok (.text (t.takeWhile (· != '<')), t.dropWhile (· != '<'))

/-! ### Nothing is lost -/

theorem eq_append_of_tagEnd? {quote : Option Char} {t s r : Text} (h : tagEnd? quote t = some (s, r)) :
    t = s ++ '>' :: r := by
  induction t generalizing quote s with
  | nil => simp [tagEnd?] at h
  | cons c t ih =>
    have more : ∀ {quote : Option Char}, (tagEnd? quote t).map (fun (s, r) => (c :: s, r)) = some (s, r) →
        c :: t = s ++ '>' :: r := by
      intro quote h
      obtain ⟨⟨s', r'⟩, hs, heq⟩ := Option.map_eq_some_iff.mp h
      obtain ⟨rfl, rfl⟩ := Prod.mk.inj heq
      simp [ih hs]
    unfold tagEnd? at h
    split at h
    · exact more h
    · split at h
      · next hc =>
        obtain ⟨rfl, rfl⟩ := Prod.mk.inj (Option.some.inj h)
        simp [hc]
      · exact more h

theorem eq_append_of_doctypeEnd? {depth : Nat} {t s r : Text} (h : doctypeEnd? depth t = some (s, r)) :
    t = s ++ '>' :: r := by
  induction t generalizing depth s with
  | nil => simp [doctypeEnd?] at h
  | cons c t ih =>
    have more : ∀ {depth : Nat}, (doctypeEnd? depth t).map (fun (s, r) => (c :: s, r)) = some (s, r) →
        c :: t = s ++ '>' :: r := by
      intro depth h
      obtain ⟨⟨s', r'⟩, hs, heq⟩ := Option.map_eq_some_iff.mp h
      obtain ⟨rfl, rfl⟩ := Prod.mk.inj heq
      simp [ih hs]
    unfold doctypeEnd? at h
    split at h
    · next hc =>
      split at h
      · obtain ⟨rfl, rfl⟩ := Prod.mk.inj (Option.some.inj h)
        simp [hc]
      · exact more h
    · exact more h

/-- Token `k` is markup, and with the rest `r` it makes up the text after the bracket that began it. -/
def Begins (t : Text) (k : Token) (r : Text) : Prop := ∃ s, k.source = '<' :: s ∧ t = s ++ r

theorem nextComment_begins {t r : Text} {k : Token} (h : nextComment t = .ok (k, r)) :
    Begins ('!' :: '-' :: '-' :: t) k r := by
  unfold nextComment at h
  split at h
  · next content rest hs =>
    obtain ⟨rfl, rfl⟩ := Prod.mk.inj (Except.ok.inj h)
    exact ⟨_, rfl, by simp [eq_append_of_splitAt? hs]⟩
  · cases h

theorem nextCData_begins {t r : Text} {k : Token} (h : nextCData t = .ok (k, r)) :
    Begins ('!' :: '[' :: (Token.cdataKeyword ++ t)) k r := by
  unfold nextCData at h
  split at h
  · next content rest hs =>
    obtain ⟨rfl, rfl⟩ := Prod.mk.inj (Except.ok.inj h)
    exact ⟨_, rfl, by simp [eq_append_of_splitAt? hs]⟩
  · cases h

theorem nextDoctype_begins {t r : Text} {k : Token} (h : nextDoctype t = .ok (k, r)) : Begins ('!' :: t) k r := by
  unfold nextDoctype at h
  split at h
  · cases h
  · next content rest hs =>
    split at h
    · cases h
    · split at h
      · cases h
      · obtain ⟨rfl, rfl⟩ := Prod.mk.inj (Except.ok.inj h)
        exact ⟨_, rfl, by simp [eq_append_of_doctypeEnd? hs]⟩

theorem nextDeclaration_begins {t r : Text} {k : Token} (h : nextDeclaration t = .ok (k, r)) :
    Begins ('!' :: t) k r := by
  unfold nextDeclaration at h
  split at h
  · cases h
  · next c t =>
    split at h
    · next hc =>
      split at h
      · exact hc ▸ nextComment_begins h
      · cases h
    · split at h
      · next hc =>
        split at h
        · next t' ht =>
          rw [hc, stripStart?_eq_some_iff.mp ht]
          exact nextCData_begins h
        · cases h
      · split at h
        · exact nextDoctype_begins h
        · cases h

theorem nextInstruction_begins {t r : Text} {k : Token} (h : nextInstruction t = .ok (k, r)) :
    Begins ('?' :: t) k r := by
  unfold nextInstruction at h
  split at h
  · cases h
  · split at h
    · next content rest hs =>
      obtain ⟨rfl, rfl⟩ := Prod.mk.inj (Except.ok.inj h)
      exact ⟨_, rfl, by simp [eq_append_of_splitAt? hs]⟩
    · cases h

theorem nextClose_begins {t r : Text} {k : Token} (h : nextClose t = .ok (k, r)) : Begins ('/' :: t) k r := by
  unfold nextClose at h
  split at h
  · next written rest hs =>
    obtain ⟨rfl, rfl⟩ := Prod.mk.inj (Except.ok.inj h)
    exact ⟨_, rfl, by simp [eq_append_of_tagEnd? hs]⟩
  · cases h

theorem nextTag_begins {t r : Text} {k : Token} (h : nextTag t = .ok (k, r)) : Begins t k r := by
  unfold nextTag at h
  split at h
  · next content rest hs =>
    split at h
    · next inner hi =>
      obtain ⟨rfl, rfl⟩ := Prod.mk.inj (Except.ok.inj h)
      exact ⟨_, rfl, by simp [eq_append_of_tagEnd? hs, stripEnd?_eq_some_iff.mp hi]⟩
    · obtain ⟨rfl, rfl⟩ := Prod.mk.inj (Except.ok.inj h)
      exact ⟨_, rfl, by simp [eq_append_of_tagEnd? hs]⟩
  · cases h

theorem nextMarkup_begins {t r : Text} {k : Token} (h : nextMarkup t = .ok (k, r)) : Begins t k r := by
  unfold nextMarkup at h
  split at h
  · cases h
  · next c r' =>
    split at h
    · next hc => exact hc ▸ nextDeclaration_begins h
    · split at h
      · next hc => exact hc ▸ nextInstruction_begins h
      · split at h
        · next hc => exact hc ▸ nextClose_begins h
        · exact nextTag_begins h

/-- A token and the rest it leaves are the text that was read. -/
theorem next_source {t r : Text} {k : Token} (h : next t = .ok (k, r)) : t = k.source ++ r := by
  unfold next at h
  split at h
  · obtain ⟨rfl, rfl⟩ := Prod.mk.inj (Except.ok.inj h)
    rfl
  · next c r' =>
    split at h
    · next hc =>
      obtain ⟨s, hk, hr⟩ := nextMarkup_begins h
      rw [hc, hk, hr]
      rfl
    · obtain ⟨rfl, rfl⟩ := Prod.mk.inj (Except.ok.inj h)
      simp only [Token.source, List.takeWhile_append_dropWhile]

/-- The first token of a text that is not empty is not empty. -/
theorem source_ne_nil_of_next {t r : Text} {k : Token} (ht : t ≠ []) (h : next t = .ok (k, r)) : k.source ≠ [] := by
  unfold next at h
  split at h
  · exact absurd rfl ht
  · next c r' =>
    split at h
    · obtain ⟨s, hk, -⟩ := nextMarkup_begins h
      simp [hk]
    · next hc =>
      obtain ⟨rfl, rfl⟩ := Prod.mk.inj (Except.ok.inj h)
      simp [Token.source, hc]

theorem length_lt_of_next {t r : Text} {k : Token} (ht : t ≠ []) (h : next t = .ok (k, r)) : r.length < t.length := by
  have hs := next_source h
  have hk := List.length_pos_iff.mpr (source_ne_nil_of_next ht h)
  rw [hs, List.length_append]
  omega

/-! ### All tokens -/

/-- The tokens of a text up to its end or the fault that stopped the reading. -/
structure Scan where
  tokens : List Token
  fault : Option Fault
  deriving DecidableEq

def Scan.cons (k : Token) (s : Scan) : Scan := { s with tokens := k :: s.tokens }

/-- All tokens of a text, end tags not yet held against start tags. -/
def scan (t : Text) : Scan :=
  if _ht : t = [] then { tokens := [], fault := none }
  else
    match _h : next t with
    | .error fault => { tokens := [], fault := some fault }
    | .ok (k, rest) => (scan rest).cons k
termination_by t.length
decreasing_by exact length_lt_of_next _ht _h

@[simp] theorem scan_nil : scan [] = { tokens := [], fault := none } := by
  rw [scan]
  rfl

theorem scan_of_error {t : Text} {fault : Fault} (h : next t = .error fault) :
    scan t = { tokens := [], fault := some fault } := by
  have ht : t ≠ [] := by
    rintro rfl
    cases h
  rw [scan, dif_neg ht]
  split
  · next f hf => rw [h] at hf; rw [Except.error.inj hf]
  · next k r hr => rw [h] at hr; cases hr

theorem scan_of_ok {t r : Text} {k : Token} (ht : t ≠ []) (h : next t = .ok (k, r)) : scan t = (scan r).cons k := by
  rw [scan, dif_neg ht]
  split
  · next f hf => rw [h] at hf; cases hf
  · next k' r' hr =>
    rw [h] at hr
    obtain ⟨rfl, rfl⟩ := Prod.mk.inj (Except.ok.inj hr)
    rfl

/-- The tokens of a text are the text up to where the reading stopped, and without a fault all of it. -/
theorem scan_source (t : Text) :
    ∃ rest, t = (scan t).tokens.flatMap Token.source ++ rest ∧ ((scan t).fault = none → rest = []) := by
  fun_induction scan t with
  | case1 => exact ⟨[], rfl, fun _ => rfl⟩
  | case2 t ht fault h => exact ⟨t, rfl, fun hf => by cases hf⟩
  | case3 t ht k r h ih =>
    obtain ⟨rest, hr, hf⟩ := ih
    exact ⟨rest, by rw [Scan.cons, List.flatMap_cons, List.append_assoc, ← hr, ← next_source h], hf⟩

/-- The tokens up to the first end tag that does not close the innermost open element. `names` are the
    names of the open elements, innermost first. -/
def matched (fault : Option Fault) (names : List Text) : List Token → Scan
  | [] => { tokens := [], fault := fault }
  | k :: ks =>
    match k with
    | .start tag => (matched fault (tag.name :: names) ks).cons k
    | .close written =>
      let found := closeName written
      match names with
      | [] => { tokens := [], fault := some { offset := 0, error := .unmatchedClose found } }
      | expected :: outer =>
        if expected = found then (matched fault outer ks).cons k
        else { tokens := [], fault := some { offset := 0, error := .mismatchedClose expected found } }
    | _ => (matched fault names ks).cons k

/-- A text without the byte order mark at its start. -/
def withoutMark (t : Text) : Text :=
  match t with
  | [] => []
  | c :: r => if c = byteOrderMark then r else t

/-- The tokens of a text after a byte order mark, each end tag closing the innermost open element. The
    mark is no token and its bytes are not counted. -/
def read (t : Text) : Scan :=
  let s := scan (withoutMark t)
  matched s.fault [] s.tokens

end StringResources.Markup
