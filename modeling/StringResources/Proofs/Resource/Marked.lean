import Mathlib.Data.List.Forall2
import StringResources.Proofs.Resource.Placed

/-! A text after a byte order mark. Its tokens and their spans are those of the text alone, for the mark is no
    token and its bytes are not counted. What is cut from the marked text in such a span begins three bytes
    too early. Main statements: `parse_of_parse_marked` and `parse_marked_iff`. -/

namespace StringResources.Parse
open Markup

/-! ### The tokens of one text read over another -/

/-- Two texts cut from `t` and `u` in the same span. -/
def CutAlike (t u x y : Text) : Prop := ∃ span : Span, span.slice? t = some x ∧ span.slice? u = some y

theorem cutAlike_nil (t u : Text) : CutAlike t u [] [] :=
  ⟨⟨0, 0⟩, @slice?_spanAfter [] [] t, @slice?_spanAfter [] [] u⟩

/-- Entries read from the same tokens over the texts `t` and `u`. -/
structure EntryAlike (t u : Text) (e f : Entry) : Prop where
  key : f.key = e.key
  translatable : f.translatable = e.translatable
  value : CutAlike t u e.value f.value
  element : CutAlike t u e.element f.element

/-- States of readings of the same tokens over the texts `t` and `u`. -/
def State.Alike (t u : Text) (s s' : State) : Prop :=
  ∃ indent entries, s' = { s with indent := indent, entries := entries } ∧
    List.Forall₂ (EntryAlike t u) s.entries entries

theorem map_key_of_alike {t u : Text} {es fs : List Entry} (h : List.Forall₂ (EntryAlike t u) es fs) :
    fs.map (·.key) = es.map (·.key) := by
  induction h with
  | nil => rfl
  | cons hhead _ ih => rw [List.map_cons, List.map_cons, hhead.key, ih]

theorem any_key_of_alike {t u : Text} {es fs : List Entry} (h : List.Forall₂ (EntryAlike t u) es fs) (key : Key) :
    fs.any (·.key == key) = es.any (·.key == key) := by
  have hmap := congrArg (List.any · (· == key)) (map_key_of_alike h)
  simpa only [List.any_map, Function.comp_def] using hmap

section Steps
variable {t u before after : Text} {s s' s₁' : State} {k : Token}

/-- An entry that is added over `u` is added over `t` as well, where its span falls between characters. -/
theorem pushEntry_of_pushEntry {element value value' : Text} (ht : t = before ++ (element ++ after))
    {span : Span} (hspan : span = spanAfter before element) (halike : s.Alike t u s') (hvalue : CutAlike t u value value')
    {key : Key} {translatable : Bool} (h : pushEntry u s' key translatable value' span = .ok s₁') :
    ∃ s₁, pushEntry t s key translatable value span = .ok s₁ ∧ s₁.Alike t u s₁' := by
  subst hspan
  obtain ⟨indent, entries, rfl, hentries⟩ := halike
  obtain ⟨hany, indent', element', -, helement, rfl⟩ := exists_of_pushEntry h
  rw [any_key_of_alike hentries] at hany
  have hcut : CutAlike t u element element' := ⟨_, by rw [ht]; exact slice?_spanAfter before element after, helement⟩
  refine ⟨_, (pushEntry_eq_ok_iff ht).mpr ⟨hany, rfl⟩, indent', _, rfl, ?_⟩
  exact List.rel_append hentries (.cons ⟨rfl, rfl, hvalue, hcut⟩ .nil)

theorem onStart_of_onStart {tag : Tag} (halike : s.Alike t u s')
    (h : onStart { s' with offset := s'.offset + k.size } tag ⟨s'.offset, s'.offset + k.size⟩ = .ok s₁') :
    ∃ s₁, onStart { s with offset := s.offset + k.size } tag ⟨s.offset, s.offset + k.size⟩ = .ok s₁ ∧
      s₁.Alike t u s₁' := by
  obtain ⟨indent, entries, rfl, hentries⟩ := halike
  cases onStart_eq_ok_iff.mp h with
  | root hd hopen hname has =>
    exact ⟨_, onStart_eq_ok_iff.mpr (.root hd hopen hname has), indent, entries, rfl, hentries⟩
  | other hd hkind => exact ⟨_, onStart_eq_ok_iff.mpr (.other hd hkind), indent, entries, rfl, hentries⟩
  | entry hd hkind hkey => exact ⟨_, onStart_eq_ok_iff.mpr (.entry hd hkind hkey), indent, entries, rfl, hentries⟩
  | inside hd => exact ⟨_, onStart_eq_ok_iff.mpr (.inside hd), indent, entries, rfl, hentries⟩

theorem onEmpty_of_onEmpty {tag : Tag} (ht : t = before ++ (k.source ++ after)) (hfits : s.Fits before)
    (halike : s.Alike t u s')
    (h : onEmpty u { s' with offset := s'.offset + k.size } tag ⟨s'.offset, s'.offset + k.size⟩ = .ok s₁') :
    ∃ s₁, onEmpty t { s with offset := s.offset + k.size } tag ⟨s.offset, s.offset + k.size⟩ = .ok s₁ ∧
      s₁.Alike t u s₁' := by
  obtain ⟨indent, entries, rfl, hentries⟩ := halike
  cases onEmpty_eq_ok_iff.mp h with
  | root hd hopen hname has =>
    exact ⟨_, onEmpty_eq_ok_iff.mpr (.root hd hopen hname has), indent, entries, rfl, hentries⟩
  | other hd hkind => exact ⟨_, onEmpty_eq_ok_iff.mpr (.other hd hkind), indent, entries, rfl, hentries⟩
  | entry hd hkind hkey hpush =>
    obtain ⟨s₁, hs₁, halike⟩ := pushEntry_of_pushEntry (s := { s with offset := s.offset + k.size }) ht
      (hfits.span_eq k) ⟨indent, entries, rfl, hentries⟩ (cutAlike_nil t u) hpush
    exact ⟨s₁, onEmpty_eq_ok_iff.mpr (.entry hd hkind hkey hs₁), halike⟩
  | inside hd => exact ⟨_, onEmpty_eq_ok_iff.mpr (.inside hd), indent, entries, rfl, hentries⟩

theorem onClose_of_onClose (ht : t = before ++ (k.source ++ after)) (hfits : s.Fits before) (halike : s.Alike t u s')
    (h : onClose u { s' with offset := s'.offset + k.size } ⟨s'.offset, s'.offset + k.size⟩ = .ok s₁') :
    ∃ s₁, onClose t { s with offset := s.offset + k.size } ⟨s.offset, s.offset + k.size⟩ = .ok s₁ ∧
      s₁.Alike t u s₁' := by
  obtain ⟨indent, entries, rfl, hentries⟩ := halike
  cases onClose_eq_ok_iff.mp h with
  | root hd => exact ⟨_, onClose_eq_ok_iff.mpr (.root hd), indent, entries, rfl, hentries⟩
  | other hd hnone => exact ⟨_, onClose_eq_ok_iff.mpr (.other hd hnone), indent, entries, rfl, hentries⟩
  | @entry p value' _ hd hp hvalue hpush =>
    obtain ⟨lead, element, body, ht', hbody, hspan⟩ := hfits.pendingElement ht hp
    obtain ⟨s₁, hs₁, halike⟩ := pushEntry_of_pushEntry
      (s := { s with offset := s.offset + k.size, depth := 1, pending := none }) ht' hspan
      ⟨indent, entries, rfl, hentries⟩ ⟨⟨p.contentStart, s.offset⟩, hbody, hvalue⟩ hpush
    exact ⟨s₁, onClose_eq_ok_iff.mpr (.entry hd hp hbody hs₁), halike⟩
  | inside hd => exact ⟨_, onClose_eq_ok_iff.mpr (.inside hd), indent, entries, rfl, hentries⟩

theorem onText_of_onText (ht : t = before ++ (k.source ++ after)) (hfits : s.Fits before) (halike : s.Alike t u s')
    (h : onText u { s' with offset := s'.offset + k.size } ⟨s'.offset, s'.offset + k.size⟩ = .ok s₁') :
    (∃ s₁, onText t { s with offset := s.offset + k.size } ⟨s.offset, s.offset + k.size⟩ = .ok s₁ ∧
      s₁.Alike t u s₁') ∨
    onText t { s with offset := s.offset + k.size } ⟨s.offset, s.offset + k.size⟩ =
      .error (.fault s.offset .textOutside) := by
  obtain ⟨indent, entries, rfl, hentries⟩ := halike
  obtain ⟨-, rfl⟩ := onText_eq_ok_iff.mp h
  have hslice : Span.slice? ⟨s.offset, s.offset + k.size⟩ t = some k.source := by
    rw [hfits.span_eq k, ht]
    exact slice?_spanAfter before k.source after
  rcases onText_of_slice? hslice with hok | herror
  · exact Or.inl ⟨_, hok, indent, entries, rfl, hentries⟩
  · exact Or.inr herror

/-- A token that is read over `u` is read over its own text `t` as well, unless it is text outside the root. -/
theorem step_of_step (ht : t = before ++ (k.source ++ after)) (hfits : s.Fits before) (halike : s.Alike t u s')
    (h : step u s' k = .ok s₁') :
    (∃ s₁, step t s k = .ok s₁ ∧ s₁.Alike t u s₁') ∨ step t s k = .error (.fault s.offset .textOutside) := by
  have hpast : State.Alike t u { s with offset := s.offset + k.size } { s' with offset := s'.offset + k.size } := by
    obtain ⟨indent, entries, rfl, hentries⟩ := halike
    exact ⟨indent, entries, rfl, hentries⟩
  cases k with
  | text content => exact onText_of_onText ht hfits halike h
  | cdata content => exact onText_of_onText ht hfits halike h
  | comment content => exact Or.inl ⟨_, rfl, Except.ok.inj h ▸ hpast⟩
  | instruction content => exact Or.inl ⟨_, rfl, Except.ok.inj h ▸ hpast⟩
  | doctype content => exact Or.inl ⟨_, rfl, Except.ok.inj h ▸ hpast⟩
  | start tag => exact Or.inl (onStart_of_onStart halike h)
  | empty tag => exact Or.inl (onEmpty_of_onEmpty ht hfits halike h)
  | close written => exact Or.inl (onClose_of_onClose ht hfits halike h)

theorem foldlM_of_foldlM {ks : List Token} (ht : t = before ++ (sources ks ++ after)) (hfits : s.Fits before)
    (halike : s.Alike t u s') (h : ks.foldlM (step u) s' = .ok s₁') :
    (∃ s₁, ks.foldlM (step t) s = .ok s₁ ∧ s₁.Alike t u s₁') ∨
      ∃ offset, ks.foldlM (step t) s = .error (.fault offset .textOutside) := by
  induction ks generalizing before s s' with
  | nil =>
    cases h
    exact Or.inl ⟨s, rfl, halike⟩
  | cons k ks ih =>
    obtain ⟨s₂', h₂, h⟩ := foldlM_cons_eq_ok_iff.mp h
    rw [sources_cons, List.append_assoc] at ht
    rcases step_of_step ht hfits halike h₂ with ⟨s₂, hs₂, halike₂⟩ | herror
    · rw [List.foldlM_cons, hs₂]
      exact ih (by rw [ht, List.append_assoc]) (step_fits hfits hs₂) halike₂ h
    · rw [List.foldlM_cons, herror]
      exact Or.inr ⟨_, rfl⟩

end Steps

/-! ### Text outside the root -/

def isCharacters : Token → Bool
  | .text _ => true
  | .cdata _ => true
  | _ => false

/-- The spans of the characters that stand in no element. The tokens begin at `offset`, where `level` elements are
    open. -/
def outsideSpans (offset level : Nat) : List Token → List Span
  | [] => []
  | k :: ks =>
    (if level = 0 ∧ isCharacters k then [⟨offset, offset + k.size⟩] else []) ++
      outsideSpans (offset + k.size) (nextLevel level k) ks

/-- What is cut from `u` in the spans is white space. -/
def SpacesIn (u : Text) (spans : List Span) : Prop :=
  ∀ span ∈ spans, ∃ content, span.slice? u = some content ∧ AllSpace content

section Outside
variable {t u : Text} {s s' : State} {k : Token} {ks : List Token}

theorem step_of_isCharacters (hk : isCharacters k = true) (t : Text) (s : State) :
    step t s k = onText t { s with offset := s.offset + k.size } ⟨s.offset, s.offset + k.size⟩ := by
  cases k <;> first | rfl | cases hk

theorem spacesIn_of_foldlM (h : ks.foldlM (step u) s = .ok s') : SpacesIn u (outsideSpans s.offset s.depth ks) := by
  induction ks generalizing s with
  | nil => exact fun _ hspan => absurd hspan (by simp [outsideSpans])
  | cons k ks ih =>
    obtain ⟨s₁, h₁, h⟩ := foldlM_cons_eq_ok_iff.mp h
    have hkept := step_kept h₁
    have hrest := ih h
    rw [hkept.offset, hkept.depth] at hrest
    intro span hspan
    rcases List.mem_append.mp hspan with hspan | hspan
    · split at hspan
      · next hk =>
        obtain rfl := List.mem_singleton.mp hspan
        rw [step_of_isCharacters hk.2] at h₁
        exact (onText_eq_ok_iff.mp h₁).1 hk.1
      · cases hspan
    · exact hrest span hspan

/-- Without an entry nothing is cut from a text but characters outside the root. -/
theorem step_of_spacesIn (h : step t s k = .ok s') (hnil : s'.entries = [])
    (hspaces : SpacesIn u (if s.depth = 0 ∧ isCharacters k then [⟨s.offset, s.offset + k.size⟩] else [])) :
    step u s k = .ok s' := by
  have hnone : ∀ {s : State} {key : Key} {translatable : Bool} {value : Text} {span : Span},
      pushEntry t s key translatable value span ≠ .ok s' := by
    intro s key translatable value span hpush
    obtain ⟨-, indent, element, -, -, rfl⟩ := exists_of_pushEntry hpush
    simp at hnil
  by_cases hk : isCharacters k = true
  · rw [step_of_isCharacters hk] at h ⊢
    refine onText_eq_ok_iff.mpr ⟨fun hd => ?_, (onText_eq_ok_iff.mp h).2⟩
    exact hspaces _ (by rw [if_pos ⟨hd, hk⟩]; exact List.mem_singleton.mpr rfl)
  · cases k with
    | text content => exact absurd rfl hk
    | cdata content => exact absurd rfl hk
    | comment content => exact h
    | instruction content => exact h
    | doctype content => exact h
    | start tag => exact h
    | empty tag =>
      refine onEmpty_eq_ok_iff.mpr ?_
      cases onEmpty_eq_ok_iff.mp h with
      | root hd hopen hname has => exact .root hd hopen hname has
      | other hd hkind => exact .other hd hkind
      | entry hd hkind hkey hpush => exact absurd hpush hnone
      | inside hd => exact .inside hd
    | close written =>
      refine onClose_eq_ok_iff.mpr ?_
      cases onClose_eq_ok_iff.mp h with
      | root hd => exact .root hd
      | other hd hp => exact .other hd hp
      | entry hd hp hvalue hpush => exact absurd hpush hnone
      | inside hd => exact .inside hd

theorem foldlM_of_spacesIn (h : ks.foldlM (step t) s = .ok s') (hnil : s'.entries = [])
    (hspaces : SpacesIn u (outsideSpans s.offset s.depth ks)) : ks.foldlM (step u) s = .ok s' := by
  induction ks generalizing s with
  | nil => exact h
  | cons k ks ih =>
    obtain ⟨s₁, h₁, h⟩ := foldlM_cons_eq_ok_iff.mp h
    have hkept := step_kept h₁
    have hnil₁ : s₁.entries = [] := by
      have := (foldlM_kept h).entries
      rwa [hnil, List.prefix_nil] at this
    refine foldlM_cons_eq_ok_iff.mpr ⟨s₁, ?_, ih h ?_⟩
    · exact step_of_spacesIn h₁ hnil₁ fun span hspan => hspaces span (List.mem_append_left _ hspan)
    · rw [hkept.offset, hkept.depth]
      exact fun span hspan => hspaces span (List.mem_append_right _ hspan)

end Outside

/-! ### After a byte order mark -/

theorem read_marked {t : Text} (ht : Unmarked t) : Markup.read (Text.byteOrderMark :: t) = Markup.read t := by
  have hmark : withoutMark (Text.byteOrderMark :: t) = withoutMark t := by
    rw [withoutMark_eq ht, withoutMark, if_pos rfl]
  rw [Markup.read, Markup.read, hmark]

theorem sources_of_read {t : Text} (ht : Unmarked t) (h : (Markup.read t).fault = none) :
    sources (Markup.read t).tokens = t := (scan_eq_iff.mp (scan_of_read ht h)).1.symm

theorem exists_tag_cons (kind : Kind) :
    ∃ c d e r, kind.tag = c :: d :: e :: r ∧ c.utf8Size = 1 ∧ d.utf8Size = 1 ∧ e ≠ '<' := by
  cases kind <;> exact ⟨_, _, _, _, rfl, by decide, by decide, by decide⟩

/-- No element begins again three bytes after it began. -/
theorem not_cutAlike_marked {t element : Text} (h : ∃ (kind : Kind) (s : Text), element = '<' :: (kind.tag ++ s)) :
    ¬ CutAlike t (Text.byteOrderMark :: t) element element := by
  rintro ⟨span, hown, hmarked⟩
  obtain ⟨kind, s, rfl⟩ := h
  obtain ⟨c, d, e, r, htag, hc, hd, he⟩ := exists_tag_cons kind
  rw [htag] at hown hmarked
  obtain ⟨a, b, ht, ha, -⟩ := Text.slice?_eq_some_iff.mp hown
  obtain ⟨a', b', ht', ha', -⟩ := Text.slice?_eq_some_iff.mp hmarked
  cases a' with
  | nil => cases ht'
  | cons m a' =>
    obtain ⟨rfl, ht''⟩ := List.cons.inj ht'
    rw [List.append_eq, ht] at ht''
    have hthree : Text.size a = Text.size a' + 3 := by
      rw [ha, ← ha', Text.size_cons, Nat.add_comm]
      rfl
    obtain ⟨w, rfl, hw⟩ := Text.exists_append_of_size_le ht''.symm (by omega)
    have hsize : Text.size w = 3 := by
      rw [Text.size_append] at hthree
      omega
    -- What lies between the two beginnings is as long as the first three characters of the element, so it is those.
    have hlead : Text.size w = Text.size ['<', c, d] := by
      rw [hsize, Text.size_cons, Text.size_cons, Text.size_cons, hc, hd]
      rfl
    have hboth : ['<', c, d] ++ (e :: (r ++ s ++ b')) = w ++ ('<' :: (c :: d :: e :: r ++ s) ++ b) := hw
    obtain ⟨-, hnext⟩ := Text.append_inj_of_size hboth hlead.symm
    exact he (List.cons.inj hnext).1

end StringResources.Parse

namespace StringResources
open Markup Parse

/-- Documents read from the same tokens, each over its own text. -/
structure Document.Alike (d d' : Document) : Prop where
  namespaces : d'.namespaces = d.namespaces
  rootOpen : d'.rootOpen = d.rootOpen
  rootClose : d'.rootClose = d.rootClose
  entries : List.Forall₂ (EntryAlike d.text d'.text) d.entries d'.entries

section Marked
variable {t path : Text}

/-- A text that is read after a byte order mark is read alone, unless it has text outside its root: that can be passed
    over where a byte order mark moves the cuts. -/
theorem parse_of_parse_marked (ht : Unmarked t) {d' : Document} (h : parse path (Text.byteOrderMark :: t) = .ok d') :
    (∃ d, parse path t = .ok d ∧ d.Alike d') ∨
      ∃ location, parse path t = .error (.error { path := path, location := location, cause := .textOutside }) := by
  rw [parse_eq_ok_iff_document, document_eq_ok_iff] at h
  obtain ⟨s', rootOpen, rootClose, hrun, hd, hopen, hclose, rfl⟩ := h
  rw [run_eq_ok_iff, read_marked ht] at hrun
  obtain ⟨hfold, hfault⟩ := hrun
  have htokens : t = [] ++ (sources (Markup.read t).tokens ++ []) := by
    rw [List.nil_append, List.append_nil, sources_of_read ht hfault]
  have hstart : State.Alike t (Text.byteOrderMark :: t) {} {} := ⟨none, [], rfl, .nil⟩
  rcases foldlM_of_foldlM htokens ⟨rfl, by simp⟩ hstart hfold with
    ⟨s, hs, indent, entries, rfl, hentries⟩ | ⟨offset, herror⟩
  · refine Or.inl ⟨_, parse_eq_ok_iff_document.mpr (document_eq_ok_iff.mpr
      ⟨s, rootOpen, rootClose, run_eq_ok_iff.mpr ⟨hs, hfault⟩, hd, hopen, hclose, rfl⟩), rfl, rfl, rfl, hentries⟩
  · refine Or.inr ⟨t.location offset, ?_⟩
    have hdocument : Parse.document path t = .error (.fault offset .textOutside) := by
      rw [Parse.document, run, herror]
      rfl
    rw [parse, hdocument]

theorem alike_of_parse (ht : Unmarked t) {d d' : Document} (h : parse path t = .ok d)
    (h' : parse path (Text.byteOrderMark :: t) = .ok d') : d.Alike d' := by
  rcases parse_of_parse_marked ht h' with ⟨d₁, h₁, halike⟩ | ⟨location, herror⟩
  · obtain rfl := Except.ok.inj (h₁.symm.trans h)
    exact halike
  · rw [h] at herror
    cases herror

/-- A text is read after a byte order mark as it is read alone exactly if it has no entry and what is cut for its text
    outside the root is white space. -/
theorem parse_marked_iff (ht : Unmarked t) {d : Document} (h : parse path t = .ok d) :
    (∃ d', parse path (Text.byteOrderMark :: t) = .ok d' ∧ d'.entries = d.entries ∧ d'.namespaces = d.namespaces ∧
        d'.indent = d.indent) ↔
      d.entries = [] ∧ SpacesIn (Text.byteOrderMark :: t) (outsideSpans 0 0 (Markup.read t).tokens) := by
  constructor
  · rintro ⟨d', h', hentries, -, -⟩
    constructor
    · have hself := (alike_of_parse ht h h').entries
      rw [hentries, text_of_parse h, text_of_parse h'] at hself
      rw [List.eq_nil_iff_forall_not_mem]
      intro e he
      obtain ⟨o, attributes, entries, -, htight, hreads, rfl⟩ := (parse_eq_ok_iff ht).mp h
      obtain ⟨-, -, child, -, hmakes, -⟩ := exists_child_of_mem_entries? htight.root.2 hreads.children he
      exact not_cutAlike_marked ⟨_, hmakes.exists_element⟩ (List.forall₂_same.mp hself e he).element
    · rw [parse_eq_ok_iff_document, document_eq_ok_iff] at h'
      obtain ⟨s', rootOpen, rootClose, hrun, -⟩ := h'
      rw [run_eq_ok_iff, read_marked ht] at hrun
      exact spacesIn_of_foldlM hrun.1
  · rintro ⟨hnil, hspaces⟩
    rw [parse_eq_ok_iff_document, document_eq_ok_iff] at h
    obtain ⟨s, rootOpen, rootClose, hrun, hd, hopen, hclose, rfl⟩ := h
    obtain ⟨hfold, hfault⟩ := run_eq_ok_iff.mp hrun
    refine ⟨_, parse_eq_ok_iff_document.mpr (document_eq_ok_iff.mpr
      ⟨s, rootOpen, rootClose, run_eq_ok_iff.mpr ⟨?_, ?_⟩, hd, hopen, hclose, rfl⟩), rfl, rfl, rfl⟩
    · rw [read_marked ht]
      exact foldlM_of_spacesIn hfold hnil hspaces
    · rwa [read_marked ht]

end Marked

end StringResources
