import StringResources.Proofs.Markup.Tags
import StringResources.Proofs.Resource.Declarations
import StringResources.Merge.Render

/-! The root's tag with declarations added. The new tag is again a start tag with the name of the root and
    the old attributes, and the declarations come after them, provided that the declarations leave all
    quotes closed (`Closed`). Main statements: `startTag_declare`, `declare_start`, `alone_declaring` and
    `allAttributes_declaring`. -/

namespace StringResources.Namespace
open Markup

/-- A namespace whose label has no quotation mark and no closing bracket. -/
def Plain (n : Namespace) : Prop := '\x27' ∉ n.label ∧ '\x22' ∉ n.label ∧ '>' ∉ n.label

instance (n : Namespace) : Decidable n.Plain :=
  inferInstanceAs (Decidable ('\x27' ∉ n.label ∧ '\x22' ∉ n.label ∧ '>' ∉ n.label))

theorem Plain.isUnquoted {n : Namespace} (h : n.Plain) : ∀ c ∈ n.label, isUnquoted c = true := by
  obtain ⟨h₁, h₂, h₃⟩ := h
  intro c hc
  have hne : c ≠ '>' ∧ c ≠ '\x22' ∧ c ≠ '\x27' := by
    refine ⟨?_, ?_, ?_⟩ <;> rintro rfl <;> contradiction
  simp [Markup.isUnquoted, hne]

end StringResources.Namespace

namespace StringResources.Render
open Markup Namespace Parse Text

/-- A tag with declarations after its attributes. -/
def declaring (tag : Tag) (ns : List Namespace) : Tag where
  name := tag.name
  fields := trimEndSpaces tag.fields ++ written ns

/-- Declarations that leave no quote open and do not end a tag. -/
def Closed (ns : List Namespace) : Prop := quoteAfter? none (written ns) = some none

instance (ns : List Namespace) : Decidable (Closed ns) :=
  inferInstanceAs (Decidable (quoteAfter? none (written ns) = some none))

/-! ### The text of the tag -/

theorem trimEndSpaces_append_of_endsQuoted {s t : Text} (h : EndsQuoted t) :
    trimEndSpaces (s ++ t) = if t = [] then trimEndSpaces s else s ++ t := by
  rcases h with rfl | ⟨u, q, rfl, hq⟩
  · simp
  · have hspace : isSpace q = false := by rcases hq with rfl | rfl <;> decide
    rw [if_neg (by simp), ← List.append_assoc]
    exact trimEnd_concat_of_neg hspace _

theorem trimEndSpaces_root {tag : Tag} (hname : tag.name = rootName) :
    trimEndSpaces ('<' :: tag.content) = '<' :: (tag.name ++ trimEndSpaces tag.fields) := by
  have hlast : '<' :: tag.name = "<resource".toList ++ ['s'] := by
    rw [hname]
    rfl
  have htrim : trimEndSpaces ('<' :: tag.name) = '<' :: tag.name := by
    rw [hlast]
    exact trimEnd_concat_of_neg (by decide) _
  have happend := trimEnd_append isSpace ('<' :: tag.name) tag.fields
  rw [List.cons_append] at happend
  rw [trimEndSpaces, Tag.content, happend]
  split
  · next h => rw [← trimEndSpaces, htrim, trimEndSpaces, h, List.append_nil]
  · rfl

theorem splitTag_start {tag : Tag} (h : stripEnd? ['/'] tag.content = none) :
    splitTag (Token.start tag).source = ('<' :: tag.content, ['>']) := by
  have hsource : (Token.start tag).source = '<' :: tag.content ++ ['>'] := rfl
  have hnone : stripEnd? ['/', '>'] ('<' :: tag.content ++ ['>']) = none := by
    rw [Option.eq_none_iff_forall_ne_some]
    intro r hr
    rw [stripEnd?_eq_some_iff] at hr
    have hr : ('<' :: tag.content) ++ ['>'] = (r ++ ['/']) ++ ['>'] := by simpa using hr
    have hr := List.append_cancel_right hr
    cases r with
    | nil => cases hr
    | cons c r =>
      obtain ⟨rfl, hcontent⟩ := List.cons.inj hr
      rw [stripEnd?_eq_some_iff.mpr hcontent] at h
      cases h
  rw [splitTag, hsource, hnone, stripEnd?_append_self]
  rfl

theorem splitTag_empty (tag : Tag) : splitTag (Token.empty tag).source = ('<' :: tag.content, ['/', '>']) := by
  have hsource : (Token.empty tag).source = '<' :: tag.content ++ ['/', '>'] := rfl
  rw [splitTag, hsource, stripEnd?_append_self]

theorem declare_of_ne_nil {tag : Text} {ns : List Namespace} (h : ns ≠ []) :
    declare tag ns = trimEndSpaces (splitTag tag).1 ++ written ns ++ (splitTag tag).2 := by
  rw [declare, if_neg h]
  rfl

theorem declare_start {tag : Tag} (hname : tag.name = rootName) (hslash : stripEnd? ['/'] tag.content = none)
    {ns : List Namespace} (h : ns ≠ []) :
    declare (Token.start tag).source ns = (Token.start (declaring tag ns)).source := by
  rw [declare_of_ne_nil h, splitTag_start hslash, trimEndSpaces_root hname]
  simp [Token.source, declaring, Tag.content]

theorem startTag_declare {tag : Tag} (hname : tag.name = rootName) (ns : List Namespace) :
    startTag (declare (Token.empty tag).source ns) = (Token.start (declaring tag ns)).source := by
  by_cases h : ns = []
  · have hsource : (Token.empty tag).source = '<' :: tag.content ++ ['/', '>'] := rfl
    rw [h, declare, if_pos rfl, startTag, hsource, stripEnd?_append_self, Option.getD_some, trimEndSpaces_root hname]
    simp [Token.source, declaring, Tag.content, written]
  · have hne : written ns ≠ [] := by
      obtain ⟨s, hs⟩ := exists_written h
      simp [hs]
    rw [declare_of_ne_nil h, splitTag_empty, startTag, stripEnd?_append_self, Option.getD_some,
      trimEndSpaces_append_of_endsQuoted (endsQuoted_written ns), if_neg hne, trimEndSpaces_root hname]
    simp [Token.source, declaring, Tag.content]

/-! ### The tag as a token -/

theorem plainHead_of_root {tag : Tag} (hname : tag.name = rootName) (t : Text) : PlainHead (tag.content ++ t) := by
  rw [Tag.content, hname]
  intro c hc
  obtain rfl := Option.some.inj hc
  decide

def Apart (fields : Text) : Prop := ∀ c ∈ fields.head?, isBlank c = true

theorem ofContent_eq_iff {tag : Tag} (hname : tag.name = rootName) :
    Tag.ofContent tag.content = tag ↔ Apart tag.fields := by
  have hword : ∀ c ∈ tag.name, (!isBlank c) = true := by
    rw [hname]
    exact List.all_eq_true.mp (by decide : rootName.all (!isBlank ·) = true)
  constructor
  · intro h c hc
    have hfields : (tag.name ++ tag.fields).dropWhile (!isBlank ·) = tag.fields := congrArg Tag.fields h
    rw [List.dropWhile_append_of_pos hword] at hfields
    have := List.head?_dropWhile_not (!isBlank ·) tag.fields
    rw [hfields, hc] at this
    simpa using this
  · intro h
    have hstop : ∀ c ∈ tag.fields.head?, (!isBlank c) = false := fun c hc => by simp [h c hc]
    rw [Tag.ofContent, Tag.content, takeWhile_append_of_stop hword hstop, dropWhile_append_of_stop hword hstop]

theorem apart_append {s t : Text} (hs : Apart s) (ht : Apart t) : Apart (s ++ t) := by
  cases s with
  | nil => exact ht
  | cons c s => exact hs

theorem apart_written (ns : List Namespace) : Apart (written ns) := by
  by_cases h : ns = []
  · simp [h, written, Apart]
  · obtain ⟨s, hs⟩ := exists_written h
    rw [hs]
    rintro _ ⟨⟩
    decide

theorem quoteAfter?_trimmed {tag : Tag} (hq : quoteAfter? none tag.content = some none) {as : List Attribute}
    (hfields : Fields tag.fields as) : quoteAfter? none (tag.name ++ trimEndSpaces tag.fields) = some none := by
  obtain ⟨-, -, gap, hgap, hblank⟩ := hfields.trim
  rw [Tag.content, hgap, ← List.append_assoc] at hq
  exact quoteAfter?_of_append_unquoted (fun c hc => isUnquoted_of_isBlank (hblank c hc)) hq

theorem apart_trimEndSpaces {fields : Text} (h : Apart fields) : Apart (trimEndSpaces fields) := by
  obtain ⟨w, hw, -⟩ := exists_trimEnd isSpace fields
  intro c hc
  refine h c ?_
  rw [hw, List.head?_append, ← trimEndSpaces, Option.mem_def.mp hc, Option.some_or]
  rfl

theorem alone_declaring {tag : Tag} (hname : tag.name = rootName) (hq : quoteAfter? none tag.content = some none)
    (hapart : Apart tag.fields) {as : List Attribute} (hfields : Fields tag.fields as) {ns : List Namespace}
    (hns : Closed ns) : (Token.start (declaring tag ns)).Alone := by
  have hplain : PlainHead (declaring tag ns).content := by
    have := @plainHead_of_root (declaring tag ns) hname []
    rwa [List.append_nil] at this
  rw [Token.alone_start_iff hplain, Tag.content]
  refine ⟨?_, ?_, ?_⟩
  · rw [declaring, ← List.append_assoc, quoteAfter?_append_of_some (quoteAfter?_trimmed hq hfields)]
    exact hns
  · rcases hfields.trim.2.1.append (endsQuoted_written ns) with hnil | ⟨s, q, hs, hquote⟩
    · rw [declaring, hnil, hname]
      decide
    · have hslash : q ≠ '/' := by rcases hquote with rfl | rfl <;> decide
      rw [declaring, hs, ← List.append_assoc]
      exact stripEnd?_eq_none_of_concat hslash
  · have hfields := apart_append (apart_trimEndSpaces hapart) (apart_written ns)
    exact (@ofContent_eq_iff (declaring tag ns) hname).mpr hfields

theorem fields_declaring {tag : Tag} {as : List Attribute} (h : Fields tag.fields as) {ns : List Namespace}
    (hns : ∀ n ∈ ns, n.WellWritten) : Fields (declaring tag ns).fields (as ++ ns.map toAttribute) :=
  h.trim.1.append (fields_written hns)

theorem allAttributes_declaring {tag : Tag} {as : List Attribute} (h : tag.allAttributes = .ok as)
    {ns : List Namespace} (hns : ∀ n ∈ ns, n.WellWritten) (hlabels : (ns.map (·.label)).Nodup)
    (hnew : ∀ n ∈ ns, n.label ∉ (namespacesOf as).map (·.label)) :
    (declaring tag ns).allAttributes = .ok (as ++ ns.map toAttribute) := by
  obtain ⟨hfields, hkeys⟩ := Tag.allAttributes_eq_ok_iff.mp h
  refine Tag.allAttributes_eq_ok_iff.mpr ⟨fields_declaring hfields hns, ?_⟩
  rw [List.map_append, List.nodup_append]
  refine ⟨hkeys, nodup_keys_toAttribute hlabels, ?_⟩
  rintro _ ha _ hb rfl
  obtain ⟨b, hb, hkey⟩ := List.mem_map.mp hb
  obtain ⟨n, hn, rfl⟩ := List.mem_map.mp hb
  obtain ⟨a, ha, hakey⟩ := List.mem_map.mp ha
  -- An attribute with the key of a declaration declares its label.
  refine hnew n hn (List.mem_map.mpr ⟨{ n with uri := a.value }, mem_namespacesOf_iff.mpr ?_, rfl⟩)
  have : Namespace.toAttribute { n with uri := a.value } = a := by
    rw [toAttribute, ← show n.toAttribute.key = keyStart ++ n.label from rfl, hkey, ← hakey]
  rwa [this]

/-! ### Closed declarations -/

theorem quoteAfter?_display {n : Namespace} (hn : n.WellWritten) (h : ∀ c ∈ n.label, isUnquoted c = true) :
    quoteAfter? none (' ' :: n.display) = some none := by
  have hkey : ∀ c ∈ ' ' :: keyStart ++ n.label ++ ['='], isUnquoted c = true := by
    intro c hc
    rw [List.append_assoc] at hc
    rcases List.mem_append.mp hc with hc | hc
    · exact List.all_eq_true.mp (by decide : (' ' :: keyStart).all isUnquoted = true) c hc
    · rcases List.mem_append.mp hc with hc | hc
      · exact h c hc
      · exact List.all_eq_true.mp (by decide : ['='].all isUnquoted = true) c hc
  have hdisplay : ' ' :: n.display =
      (' ' :: keyStart ++ n.label ++ ['=']) ++ quote n.uri :: (n.uri ++ [quote n.uri]) := by
    simp [display]
  rw [hdisplay, quoteAfter?_append_of_some (quoteAfter?_of_unquoted hkey)]
  exact quoteAfter?_quotation (quote_eq n.uri) hn.2

theorem closed_of_plain {ns : List Namespace} (hns : ∀ n ∈ ns, n.WellWritten) (h : ∀ n ∈ ns, n.Plain) : Closed ns := by
  induction ns with
  | nil => rfl
  | cons n ns ih =>
    rw [List.forall_mem_cons] at hns h
    have hcons : written (n :: ns) = ' ' :: n.display ++ written ns := rfl
    rw [Closed, hcons, quoteAfter?_append_of_some (quoteAfter?_display hns.1 h.1.isUnquoted)]
    exact ih hns.2 h.2

end StringResources.Render
