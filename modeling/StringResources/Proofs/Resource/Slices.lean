import StringResources.Proofs.Resource.Placed

/-! Entries as slices of the text. The elements of a forest stand in its text one after the other, with gaps between
    them, so each entry has a span of its own, inside the root, and its element is what is cut there: an empty tag, or a
    start tag, the value and the end tag that closes it. Main statement: `slices_of_parse`. -/

namespace StringResources
open Markup

/-! ### Gaps -/

/-- A text in which the given parts stand one after the other, with gaps before and after them. -/
inductive Tiled : Text → List Text → Prop
  | gap (last : Text) : Tiled last []
  | part (gap part : Text) {rest : Text} {parts : List Text} : Tiled rest parts →
      Tiled (gap ++ (part ++ rest)) (part :: parts)

section Tiled
variable {t : Text} {parts : List Text}

theorem Tiled.prepend (h : Tiled t parts) (s : Text) : Tiled (s ++ t) parts := by
  cases h with
  | gap last => exact .gap _
  | part gap part h =>
    rw [← List.append_assoc]
    exact .part _ _ h

theorem Tiled.append (h : Tiled t parts) (s : Text) : Tiled (t ++ s) parts := by
  induction h with
  | gap last => exact .gap _
  | part gap part _ ih =>
    rw [List.append_assoc, List.append_assoc]
    exact .part _ _ ih

end Tiled

/-- Whether the end of a root comes after a span. The only tag of a root has nothing before its end. -/
def RootClose.Follows : RootClose → Span → Prop
  | .endTag start, span => span.stop ≤ start
  | .selfClosing _, _ => False

/-- Spans of a text one after the other, inside the root of the document that was read from it, where the elements of
    the entries stand. -/
structure Document.Slices (d : Document) (t : Text) (spans : List Span) : Prop where
  elements : List.Forall₂ (fun span e => span.slice? t = some e.element) spans d.entries
  apart : spans.Pairwise fun a b => a.stop ≤ b.start
  nonempty : ∀ span ∈ spans, span.start < span.stop
  inside : ∀ span ∈ spans, d.rootOpen.stop ≤ span.start ∧ d.rootClose.Follows span

/-- The element of an entry is a tag of its kind: an empty one, or a start tag before the value and the end tag that
    closes it after the value. -/
inductive Entry.Written (e : Entry) : Prop
  | empty (tag : Tag) : tag.name = e.key.kind.tag → e.element = (Token.empty tag).source → e.value = [] →
      Markup.read e.element = { tokens := [.empty tag], fault := none } → e.Written
  | element (tag : Tag) (body : Forest) (written : Text) : tag.name = e.key.kind.tag → closeName written = tag.name →
      e.element = (Token.start tag).source ++ (e.value ++ (Token.close written).source) → e.value = body.source →
      Markup.read e.element = { tokens := .start tag :: (body.tokens ++ [.close written]), fault := none } → e.Written

/-- The element of an entry begins with the tag of its kind and ends with a bracket. -/
theorem Entry.Written.exists_element {e : Entry} (h : e.Written) :
    ∃ s, e.element = '<' :: (e.key.kind.tag ++ s ++ ['>']) := by
  cases h with
  | empty tag hkind helement =>
    exact ⟨tag.fields ++ ['/'], by simp [helement, Token.source, Tag.content, hkind]⟩
  | element tag body written hkind _ helement =>
    refine ⟨tag.fields ++ '>' :: (e.value ++ '<' :: '/' :: written), ?_⟩
    simp [helement, Token.source, Tag.content, hkind]

namespace Parse

/-- The elements of a forest that are chosen stand in its text one after the other. -/
theorem tiled_elements (p : Root → Bool) (F : Forest) : Tiled F.source ((F.elements.filter p).map Root.source) := by
  have hroot : ∀ (root : Root) {rest : Text} {roots : List Root}, Tiled rest ((roots.filter p).map Root.source) →
      Tiled (root.source ++ rest) (((root :: roots).filter p).map Root.source) := by
    intro root rest roots h
    cases hp : p root with
    | false =>
      rw [List.filter_cons_of_neg (by simp [hp])]
      exact h.prepend root.source
    | true =>
      rw [List.filter_cons_of_pos hp]
      exact .part [] root.source h
  induction F with
  | nil => exact .gap []
  | leaf k hk rest ih =>
    rw [Forest.source_leaf]
    cases k
    case empty tag => exact hroot (.empty tag) ih
    all_goals exact ih.prepend _
  | element tag body written closes rest _ ih =>
    have hsource : (Forest.element tag body written closes rest).source =
        (Root.element tag body written closes).source ++ rest.source := by
      simp [Root.source, elementSource]
    rw [hsource]
    exact hroot _ ih

/-- Parts of a text have spans in it, one after the other. -/
theorem exists_spans {s : Text} {parts : List Text} (h : Tiled s parts) (hne : ∀ part ∈ parts, part ≠ [])
    (before after : Text) :
    ∃ spans : List Span, List.Forall₂ (fun span part => span.slice? (before ++ (s ++ after)) = some part) spans parts ∧
      spans.Pairwise (fun a b => a.stop ≤ b.start) ∧
      ∀ span ∈ spans, before.size ≤ span.start ∧ span.start < span.stop ∧ span.stop ≤ (before ++ s).size := by
  induction h generalizing before with
  | gap last => exact ⟨[], .nil, .nil, by simp⟩
  | @part gap part rest parts _ ih =>
    rw [List.forall_mem_cons] at hne
    obtain ⟨spans, hslices, hapart, hinside⟩ := ih hne.2 (before ++ (gap ++ part))
    have hwhole : before ++ (gap ++ part) ++ (rest ++ after) = before ++ (gap ++ (part ++ rest) ++ after) := by simp
    rw [hwhole] at hslices
    have hpos : 0 < part.size := (List.length_pos_iff.mpr hne.1).trans_le (Text.length_le_size part)
    refine ⟨spanAfter (before ++ gap) part :: spans, .cons ?_ hslices, .cons ?_ hapart,
      List.forall_mem_cons.mpr ⟨?_, ?_⟩⟩
    · simpa using slice?_spanAfter (before ++ gap) part (rest ++ after)
    · intro span hspan
      simpa [spanAfter] using (hinside span hspan).1
    · simp only [spanAfter, Text.size_append]
      omega
    · intro span hspan
      have hin := hinside span hspan
      simp only [Text.size_append] at hin ⊢
      omega

/-- The tokens of an element are read from its text. -/
theorem scan_source_of_mem_elements {F : Forest} (hloose : F.Loose) (hglue : glue F.tokens = F.tokens) {root : Root}
    (h : root ∈ F.elements) : scan root.source = { tokens := root.tokens, fault := none } := by
  obtain ⟨B, A, rfl⟩ := exists_append_of_mem_elements h
  rw [Forest.tokens_append, Forest.tokens_append, Root.tokens_forest] at hglue
  rw [Forest.Loose, Forest.tokens_append, Forest.tokens_append, Root.tokens_forest] at hloose
  exact scan_eq_iff.mpr ⟨root.sources_tokens.symm,
    fun k hk => hloose k (List.mem_append_right _ (List.mem_append_left _ hk)), (Root.glue_eq_of_append hglue).2.1⟩

theorem Root.Makes.written {root : Root} {e : Entry} (h : root.Makes e)
    (hscan : scan root.source = { tokens := root.tokens, fault := none }) : e.Written := by
  have hread : Markup.read e.element = { tokens := root.tokens, fault := none } := by
    rw [← root.tokens_forest] at hscan ⊢
    rw [← h.element, ← withoutMark_eq h.unmarked] at hscan
    exact read_of_forest hscan
  cases root with
  | empty tag => exact .empty tag h.kind h.element h.value hread
  | element tag body written closes =>
    refine .element tag body written h.kind closes ?_ h.value hread
    rw [h.element, h.value]
    rfl

theorem written_of_makes {roots : List Root} {entries : List Entry} (h : List.Forall₂ Root.Makes roots entries)
    (hscan : ∀ root ∈ roots, scan root.source = { tokens := root.tokens, fault := none }) :
    ∀ e ∈ entries, e.Written := by
  induction h with
  | nil => simp
  | cons hmakes _ ih =>
    rw [List.forall_mem_cons] at hscan ⊢
    exact ⟨hmakes.written hscan.1, ih hscan.2⟩

theorem map_source_of_makes {roots : List Root} {entries : List Entry} (h : List.Forall₂ Root.Makes roots entries) :
    roots.map Root.source = entries.map (·.element) := by
  rw [← List.forall₂_eq_eq_eq, List.forall₂_map_left_iff, List.forall₂_map_right_iff]
  exact h.imp fun _ _ hmakes => hmakes.element.symm

/-- A span among the children of a root is before its end. -/
theorem Root.follows_close {root : Root} {before : Text} {span : Span}
    (hstart : (before ++ root.opening.source).size ≤ span.start) (hne : span.start < span.stop)
    (hstop : span.stop ≤ (before ++ root.opening.source ++ root.children.source).size) :
    (root.close before).Follows span := by
  cases root with
  | empty tag =>
    rw [Root.children, Forest.source_nil, List.append_nil] at hstop
    omega
  | element tag body written closes =>
    rwa [List.append_assoc] at hstop

theorem Outline.slices_document {o : Outline} {attributes : List Attribute} {entries : List Entry}
    (h : Tiled o.root.children.source (entries.map (·.element))) (hne : ∀ e ∈ entries, e.element ≠ []) (path : Text) :
    (∃ spans, (o.document path attributes entries).Slices o.source spans) ∧ Tiled o.source (entries.map (·.element)) := by
  obtain ⟨after, hsource⟩ : ∃ after, o.source =
      sources o.before ++ o.root.opening.source ++ (o.root.children.source ++ after) := by
    obtain ⟨closing, hclosing⟩ := o.root.exists_source_eq
    exact ⟨closing ++ sources o.after, by rw [Outline.source, hclosing]; simp⟩
  obtain ⟨spans, hslices, hapart, hinside⟩ := exists_spans h (by simpa using hne)
    (sources o.before ++ o.root.opening.source) after
  rw [← hsource, List.forall₂_map_right_iff] at hslices
  refine ⟨⟨spans, hslices, hapart, fun span hspan => (hinside span hspan).2.1, fun span hspan => ?_⟩, ?_⟩
  · obtain ⟨hstart, hne, hstop⟩ := hinside span hspan
    exact ⟨hstart, Root.follows_close hstart hne hstop⟩
  · rw [hsource]
    exact (h.append after).prepend _

end Parse

open Parse

/-- The entries of a document are slices of the text it was read from. They stand one after the other inside the root,
    and the text is their elements with gaps before and after them. -/
theorem slices_of_parse {path t : Text} (ht : Unmarked t) {d : Document} (h : parse path t = .ok d) :
    (∃ spans, d.Slices t spans) ∧ Tiled t (d.entries.map (·.element)) ∧
      ∀ e ∈ d.entries, e.Written ∧ ∃ s, e.element = '<' :: (e.key.kind.tag ++ s ++ ['>']) := by
  obtain ⟨o, attributes, entries, rfl, htight, hreads, rfl⟩ := (parse_eq_ok_iff ht).mp h
  have hmakes := entries?_eq_some_iff.mp hreads.children
  have hglue := (Root.glue_eq_of_append htight.2).2.2.1
  have hwritten : ∀ e ∈ entries, e.Written := written_of_makes hmakes fun root hroot =>
    scan_source_of_mem_elements htight.root.2 hglue (List.mem_filter.mp hroot).1
  have htiled := tiled_elements Root.isOfKind o.root.children
  rw [map_source_of_makes hmakes] at htiled
  have hne : ∀ e ∈ entries, e.element ≠ [] := fun e he => by
    obtain ⟨s, hs⟩ := (hwritten e he).exists_element
    simp [hs]
  obtain ⟨hslices, hwhole⟩ := Outline.slices_document htiled hne path
  exact ⟨hslices, hwhole, fun e he => ⟨hwritten e he, (hwritten e he).exists_element⟩⟩

/-- The element with an element inside is one slice, and there is text before and after it. -/
theorem slices_of_parse_nested :
    Unmarked nested ∧ parse [] nested = .ok nestedDocument ∧ (∃ spans, nestedDocument.Slices nested spans) ∧
      Tiled nested ["<string name=\x22k\x22 translatable=\x22false\x22>v<string/></string>".toList] ∧
      ∀ e ∈ nestedDocument.entries, e.Written := by
  have ht : Unmarked nested := by decide
  obtain ⟨hslices, htiled, hwritten⟩ := slices_of_parse ht parse_nested
  exact ⟨ht, parse_nested, hslices, htiled, fun e he => (hwritten e he).1⟩

end StringResources
