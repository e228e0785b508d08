import StringResources.Proofs.Merge.RoundTrip
import StringResources.Proofs.Resource.Slices

/-! What a document keeps when elements are added. All that was written is there again, in its place: only the
    tag of the root is another, and that tag has the old attributes before the declarations that were added.
    Main statement: `render_grown`. -/

namespace StringResources.Render
open Markup Parse Text

/-- The text of a document with text added before the end of its root. All else is as it was but for `tag`, the
    tag of the root, which is now written `tag'`: a start tag changes only with declarations `ns`, and the tag
    of a root without an end tag becomes a start tag, with an end tag after what was added. -/
inductive Grown (d : Document) (tag : Tag) (ns : List Namespace) (tag' added : Text) : Text → Prop
  | endTag {opening body blanks written rest : Text} :
      Parts d opening (Token.start tag).source body blanks ((Token.close written).source ++ rest) →
      (Token.start tag).Alone → closeName written = rootName → (ns = [] → tag' = (Token.start tag).source) →
      Grown d tag ns tag' added
        (opening ++ (tag' ++ (body ++ (added ++ (blanks ++ ((Token.close written).source ++ rest))))))
  | selfClosing {opening rest : Text} :
      d.text = opening ++ ((Token.empty tag).source ++ rest) →
      d.rootOpen = spanAfter opening (Token.empty tag).source →
      d.rootClose = .selfClosing (spanAfter opening (Token.empty tag).source) → (Token.empty tag).Alone →
      Grown d tag ns tag' added (opening ++ (tag' ++ (added ++ (rootEnd ++ rest))))

/-- The elements of a block stand in it in their order. -/
theorem tiled_block (indent newline : Text) (mark : Bool) (elements : List Text) :
    Tiled (block indent newline mark elements) elements := by
  induction elements with
  | nil => exact .gap []
  | cons element elements ih =>
    have hlines : block indent newline mark (element :: elements) =
        ((if mark then indent ++ marker ++ newline else []) ++ indent) ++
          (element ++ (newline ++ block indent newline mark elements)) := by
      simp [block, lines]
    rw [hlines]
    exact .part _ element (ih.prepend newline)

section Grown
variable {d : Document} {elements : List Text} {style : Style} {opening rest : Text} {tag : Tag}

theorem exists_grown_of_parts {body blanks written : Text}
    (hparts : Parts d opening (Token.start tag).source body blanks ((Token.close written).source ++ rest))
    (hstart : (Token.start tag).Alone) (hclose : closeName written = rootName) (h : elements ≠ []) :
    ∃ out added, render d elements style = some out ∧
      Grown d tag (Labels.missing d elements style.namespaces)
        (declare (Token.start tag).source (Labels.missing d elements style.namespaces)) added out ∧
      Tiled added elements := by
  have hkept : Labels.missing d elements style.namespaces = [] →
      declare (Token.start tag).source (Labels.missing d elements style.namespaces) = (Token.start tag).source :=
    fun hns => if_pos hns
  refine ⟨_, lineEnd (opening ++ ((Token.start tag).source ++ body)) (newline d.text) ++
    block (indent d style) (newline d.text) style.mark elements, render_of_parts hparts h, ?_,
    (tiled_block _ _ _ elements).prepend _⟩
  rw [spliced, ← List.append_assoc (lineEnd _ _)]
  exact .endTag hparts hstart hclose hkept

theorem exists_grown_of_selfClosing (htext : d.text = opening ++ ((Token.empty tag).source ++ rest))
    (hopen : d.rootOpen = spanAfter opening (Token.empty tag).source)
    (hclose : d.rootClose = .selfClosing (spanAfter opening (Token.empty tag).source))
    (hempty : (Token.empty tag).Alone) (h : elements ≠ []) :
    ∃ out added, render d elements style = some out ∧
      Grown d tag (Labels.missing d elements style.namespaces)
        (startTag (declare (Token.empty tag).source (Labels.missing d elements style.namespaces))) added out ∧
      Tiled added elements :=
  ⟨_, _, render_of_selfClosing h htext hopen hclose, .selfClosing htext hopen hclose hempty,
    (tiled_block _ _ _ elements).prepend (newline d.text)⟩

end Grown

/-- Elements are added to a document that was read in one block, at the end of its root. -/
theorem exists_grown {o : Outline} (htight : o.Tight) (hname : o.root.tag.name = rootName) {path : Text}
    {attributes : List Attribute} {entries : List Entry} {d : Document} (hd : d = o.document path attributes entries)
    {elements : List Text} (h : elements ≠ []) (style : Style) :
    ∃ out added, render d elements style = some out ∧
      Grown d o.root.tag (Labels.missing d elements style.namespaces)
        (retagged (Labels.missing d elements style.namespaces) o.root) added out ∧
      Tiled added elements := by
  have hopening := htight.root.1
  have htext : d.text = o.source := by rw [hd, Outline.document]
  have hopen : d.rootOpen = spanAfter (sources o.before) o.root.opening.source := by rw [hd, Outline.document]
  have hclose : d.rootClose = o.root.close (sources o.before) := by rw [hd, Outline.document]
  cases hroot : o.root with
  | empty tag =>
    rw [hroot] at hopening hopen hclose
    rw [Outline.source, hroot, Root.source] at htext
    exact exists_grown_of_selfClosing htext hopen hclose hopening h
  | element tag body written closes =>
    rw [hroot] at hopening hname hopen hclose
    rw [Outline.source, hroot, Root.source, elementSource, List.append_assoc, List.append_assoc] at htext
    exact exists_grown_of_parts (parts_of_endTag htext hopen hclose (Token.exists_source_concat rfl)) hopening
      (closes.trans hname) h

end StringResources.Render

namespace StringResources
open Markup Parse Render Text

/-- Elements are added to a document in one block at the end of its root, and all that was written stays as it
    was but for the tag of the root. That tag is read with its old attributes and the declarations that were
    missing, where these come from a root whose labels have no quotation mark and no closing bracket. -/
theorem render_grown {path t : Text} (ht : Unmarked t) {locale : Document} (hlocale : parse path t = .ok locale)
    {elements : List Text} (h : elements ≠ []) (style : Style) :
    ∃ (out : Text) (tag : Tag) (attributes : List Attribute) (tag' added : Text),
      render locale elements style = some out ∧
      Grown locale tag (Labels.missing locale elements style.namespaces) tag' added out ∧ Tiled added elements ∧
      tag.name = rootName ∧ tag.allAttributes = .ok attributes ∧
      ∀ {rootPath rootText : Text} {root : Document}, parse rootPath rootText = .ok root →
        style.namespaces = root.namespaces → (∀ n ∈ root.namespaces, n.Plain) →
        ∃ new : Tag, next tag' = .ok (.start new, []) ∧ new.name = rootName ∧ new.allAttributes =
          .ok (attributes ++ (Labels.missing locale elements style.namespaces).map Namespace.toAttribute) := by
  obtain ⟨o, attributes, -, htight, hreads, hd⟩ := exists_outline_of_parse ht hlocale
  obtain ⟨out, added, hrender, hgrown, htiled⟩ := exists_grown htight hreads.name hd h style
  refine ⟨out, o.root.tag, attributes, _, added, hrender, hgrown, htiled, hreads.name, hreads.fields, ?_⟩
  intro rootPath rootText root hroot hstyle hplain
  obtain ⟨hwritten, hlabels⟩ := wellWritten_of_parse hroot
  rw [← hstyle] at hwritten hlabels hplain
  obtain ⟨hsub, hnew⟩ := @missing_labels locale elements style.namespaces
  have hnamespaces : locale.namespaces = namespacesOf attributes := by rw [hd, Outline.document]
  rw [hnamespaces] at hnew
  obtain ⟨new, hname, hsource, halone, hattributes⟩ := exists_retagged hreads.name htight.root.1 hreads.fields
    (fun n hn => hwritten n (hsub.subset hn)) (hlabels.sublist (hsub.map _)) hnew (closed_missing hwritten hplain)
  refine ⟨new, ?_, hname, hattributes⟩
  have hread := halone []
  rwa [List.append_nil, hsource] at hread

/-- A root without an end tag between two comments gets one, and its tag a declaration after its own. -/
theorem render_grown_between_comments :
    ∃ (locale : Document) (out : Text) (tag new : Tag) (attributes : List Attribute) (tag' added : Text),
      Unmarked "<!--c--><resources xmlns:m=\x27\x22\x27 />\n<!--d-->".toList ∧
      parse [] "<!--c--><resources xmlns:m=\x27\x22\x27 />\n<!--d-->".toList = .ok locale ∧
      parse [] nested = .ok nestedDocument ∧ (∀ n ∈ nestedDocument.namespaces, n.Plain) ∧
      render locale ["<string x:k=\x221\x22/>".toList] { mark := true, namespaces := nestedDocument.namespaces } =
        some out ∧
      Grown locale tag [⟨['x'], ['u']⟩] tag' added out ∧ Tiled added ["<string x:k=\x221\x22/>".toList] ∧
      tag.name = rootName ∧ tag.allAttributes = .ok attributes ∧ next tag' = .ok (.start new, []) ∧
      new.allAttributes = .ok (attributes ++ [⟨"xmlns:x".toList, ['u']⟩]) := by
  have ht : Unmarked "<!--c--><resources xmlns:m=\x27\x22\x27 />\n<!--d-->".toList := by decide
  have hlocale : parse [] "<!--c--><resources xmlns:m=\x27\x22\x27 />\n<!--d-->".toList = .ok
      { path := [], text := "<!--c--><resources xmlns:m=\x27\x22\x27 />\n<!--d-->".toList, entries := [], indent := none,
        rootOpen := ⟨8, 33⟩, rootClose := .selfClosing ⟨8, 33⟩, namespaces := [⟨['m'], ['\x22']⟩] } := by
    decide +kernel
  have hplain : ∀ n ∈ nestedDocument.namespaces, n.Plain := by decide
  obtain ⟨out, tag, attributes, tag', added, hrender, hgrown, htiled, hname, hold, hnew⟩ :=
    render_grown ht hlocale (List.cons_ne_nil "<string x:k=\x221\x22/>".toList [])
      { mark := true, namespaces := nestedDocument.namespaces }
  obtain ⟨new, hnext, -, hattributes⟩ := hnew parse_nested rfl hplain
  have hmissing : Labels.missing
      { path := [], text := "<!--c--><resources xmlns:m=\x27\x22\x27 />\n<!--d-->".toList, entries := [], indent := none,
        rootOpen := ⟨8, 33⟩, rootClose := .selfClosing ⟨8, 33⟩, namespaces := [⟨['m'], ['\x22']⟩] }
      ["<string x:k=\x221\x22/>".toList] nestedDocument.namespaces = [⟨['x'], ['u']⟩] := by decide +kernel
  rw [hmissing] at hgrown hattributes
  exact ⟨_, out, tag, new, attributes, tag', added, ht, hlocale, parse_nested, hplain, hrender, hgrown, htiled, hname,
    hold, hnext, hattributes⟩

end StringResources
