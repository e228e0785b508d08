import Mathlib.Data.List.Forall2
import StringResources.Proofs.Markup.Descent
import StringResources.Proofs.Resource.Declarations

/-! The grammar of documents. The tokens of a text are taken as a forest, and conditions on the elements of the forest
    say what is a document and what is in it. Main statement: `parse_iff_grammatical`, a text is read as a document
    exactly if the conditions hold, and the document has the entries and namespaces that they give. -/

namespace StringResources.Markup
open Parse

/-- The element that is an empty tag. -/
def Token.elements : Token → List Root
  | .empty tag => [.empty tag]
  | _ => []

namespace Forest

/-- The elements of a forest that are in no other, in order. -/
def elements : Forest → List Root
  | nil => []
  | leaf k _ rest => k.elements ++ rest.elements
  | element tag body written closes rest => .element tag body written closes :: rest.elements

/-- What stands between the elements of a forest. -/
def others : Forest → List Token
  | nil => []
  | leaf k _ rest => if k.tag?.isSome then rest.others else k :: rest.others
  | element _ _ _ _ rest => rest.others

theorem elements_append (F G : Forest) : (F.append G).elements = F.elements ++ G.elements := by
  induction F with
  | nil => rfl
  | leaf k h rest ih => simp [append, elements, ih]
  | element tag body written h rest _ ih => simp [append, elements, ih]

theorem others_append (F G : Forest) : (F.append G).others = F.others ++ G.others := by
  induction F with
  | nil => rfl
  | leaf k h rest ih =>
    simp only [append, others, ih]
    split <;> rfl
  | element tag body written h rest _ ih => exact ih

theorem elements_eq_nil_iff {k : Token} (h : k.isLeaf = true) : k.elements = [] ↔ k.tag? = none := by
  cases k <;> first | cases h; done | simp [Token.elements, Token.tag?]

/-- Leaves without a tag are no elements. -/
theorem elements_of_leaves {F : Forest} (h : ∀ k ∈ F.tokens, k.isLeaf = true ∧ k.tag? = none) :
    F.elements = [] ∧ F.others = F.tokens := by
  induction F with
  | nil => exact ⟨rfl, rfl⟩
  | leaf k hk rest ih =>
    obtain ⟨⟨-, htag⟩, hrest⟩ := List.forall_mem_cons.mp h
    obtain ⟨helements, hothers⟩ := ih hrest
    simp [elements, others, tokens, (elements_eq_nil_iff hk).mpr htag, htag, helements, hothers]
  | element tag body written closes rest _ _ => cases (h _ List.mem_cons_self).1

theorem leaves_of_mem_others {F : Forest} {k : Token} (h : k ∈ F.others) : k.isLeaf = true ∧ k.tag? = none := by
  induction F with
  | nil => cases h
  | leaf l hl rest ih =>
    rw [others] at h
    split at h
    · exact ih h
    · next htag =>
      rcases List.mem_cons.mp h with rfl | h
      · exact ⟨hl, by simpa using htag⟩
      · exact ih h
  | element tag body written closes rest _ ih => exact ih h

theorem tokens_of_elements_eq_nil {F : Forest} (h : F.elements = []) : F.tokens = F.others := by
  induction F with
  | nil => rfl
  | leaf k hk rest ih =>
    obtain ⟨hown, hrest⟩ := List.append_eq_nil_iff.mp h
    simp [tokens, others, (elements_eq_nil_iff hk).mp hown, ih hrest]
  | element tag body written closes rest _ _ => cases h

/-- A forest with one element is that element and what stands before and after it. -/
theorem tokens_of_elements_eq_singleton {F : Forest} {root : Root} (h : F.elements = [root]) :
    ∃ before after, F.tokens = before ++ (root.tokens ++ after) ∧ F.others = before ++ after := by
  induction F with
  | nil => cases h
  | leaf k hk rest ih =>
    cases htag : k.tag? with
    | none =>
      rw [elements, (elements_eq_nil_iff hk).mpr htag] at h
      obtain ⟨before, after, htokens, hothers⟩ := ih h
      exact ⟨k :: before, after, congrArg (k :: ·) htokens, by simp [others, htag, hothers]⟩
    | some tag =>
      obtain rfl : k = .empty tag := by
        cases k <;> first | cases hk; done | cases htag; done | skip
        exact congrArg Token.empty (Option.some.inj htag)
      obtain ⟨rfl, hrest⟩ := List.cons.inj h
      exact ⟨[], rest.others, by rw [tokens, tokens_of_elements_eq_nil hrest]; rfl, rfl⟩
  | element tag body written closes rest _ _ =>
    obtain ⟨rfl, hrest⟩ := List.cons.inj h
    exact ⟨[], rest.others, by simp [tokens, tokens_of_elements_eq_nil hrest, Root.tokens], rfl⟩

/-- The element with leaves before and after it is the only one of the forest. -/
theorem elements_eq_singleton {F : Forest} {root : Root} {before after : List Token}
    (hF : F.tokens = before ++ (root.tokens ++ after)) (hbefore : ∀ k ∈ before, k.isLeaf = true ∧ k.tag? = none)
    (hafter : ∀ k ∈ after, k.isLeaf = true ∧ k.tag? = none) : F.elements = [root] ∧ F.others = before ++ after := by
  obtain ⟨B, rfl⟩ := exists_forest_of_isLeaf fun k hk => (hbefore k hk).1
  obtain ⟨A, rfl⟩ := exists_forest_of_isLeaf fun k hk => (hafter k hk).1
  obtain ⟨R, hR, helements, hothers⟩ : ∃ R : Forest, R.tokens = root.tokens ∧ R.elements = [root] ∧ R.others = [] := by
    cases root with
    | empty tag => exact ⟨.leaf (.empty tag) rfl .nil, rfl, rfl, rfl⟩
    | element tag body written closes => exact ⟨.element tag body written closes .nil, rfl, rfl, rfl⟩
  obtain ⟨hB, hB'⟩ := elements_of_leaves hbefore
  obtain ⟨hA, hA'⟩ := elements_of_leaves hafter
  obtain rfl : F = B.append (R.append A) := tokens_injective (by simp [hF, hR])
  simp [elements_append, others_append, hB, hB', hA, hA', helements, hothers]

end Forest
end StringResources.Markup

namespace StringResources.Parse
open Markup Namespace

/-! ### Entries -/

/-- Whether an element has the name of a kind. -/
def Root.isOfKind (child : Root) : Bool := (Kind.ofTag? child.tag.name).isSome

/-- The entry that a child of the root makes: its tag has the name of the kind, and attributes that give the name and
    the translatability. -/
structure Root.Makes (child : Root) (e : Entry) : Prop where
  kind : child.tag.name = e.key.kind.tag
  name : ∃ a, child.tag.attribute? "name".toList = .ok (some a) ∧ Reference.unescape a.value = .ok e.key.name
  named : e.key.name ≠ []
  translatable : ∃ o, child.tag.attribute? "translatable".toList = .ok o ∧
    (e.translatable = false ↔ ∃ a ∈ o, a.value = "false".toList)
  value : e.value = child.children.source
  element : e.element = child.source

theorem entryKey_eq_ok_iff_attributes {kind : Kind} {tag : Tag} {start : Nat} {key : Key} {translatable : Bool} :
    entryKey kind tag start = .ok (key, translatable) ↔
      key.kind = kind ∧
      (∃ a, tag.attribute? "name".toList = .ok (some a) ∧ Reference.unescape a.value = .ok key.name) ∧
      key.name ≠ [] ∧
      ∃ o, tag.attribute? "translatable".toList = .ok o ∧
        (translatable = false ↔ ∃ a ∈ o, a.value = "false".toList) := by
  constructor
  · intro h
    unfold entryKey at h
    split at h
    · cases h
    · cases h
    · next a ha =>
      split at h
      · cases h
      · cases h
      · next c rest he =>
        split at h
        · cases h
        · next ho =>
          cases h
          exact ⟨rfl, ⟨a, ha, he⟩, List.cons_ne_nil _ _, none, ho, by simp⟩
        · next b ho =>
          cases h
          exact ⟨rfl, ⟨a, ha, he⟩, List.cons_ne_nil _ _, some b, ho, by simp⟩
  · rintro ⟨rfl, ⟨a, ha, he⟩, hne, o, ho, htranslatable⟩
    obtain ⟨kind, name⟩ := key
    obtain ⟨c, rest, rfl⟩ := List.exists_cons_of_ne_nil hne
    dsimp only at he
    simp only [entryKey, ha, he, ho]
    cases o with
    | none => cases translatable <;> simp_all
    | some b => cases translatable <;> simp_all

theorem Root.entriesOf?_eq_some_iff (child : Root) {es : List Entry} :
    entriesOf? child.tag child.children.source child.source = some es ↔
      List.Forall₂ Root.Makes ([child].filter Root.isOfKind) es := by
  cases hkind : Kind.ofTag? child.tag.name with
  | none => simp [entriesOf?, Root.isOfKind, hkind, eq_comm]
  | some kind =>
    rw [List.filter_cons_of_pos (by simp [Root.isOfKind, hkind]), List.filter_nil, List.forall₂_cons_left_iff]
    simp only [entriesOf?, hkind, List.forall₂_nil_left_iff]
    have hname := Kind.ofTag?_eq_some_iff.mp hkind
    constructor
    · intro h
      split at h
      · next key translatable hkey =>
        obtain ⟨hk, hname', hnamed, htranslatable⟩ := entryKey_eq_ok_iff_attributes.mp hkey
        cases h
        exact ⟨_, [], ⟨hk ▸ hname, hname', hnamed, htranslatable, rfl, rfl⟩, rfl, rfl⟩
      · cases h
    · rintro ⟨⟨key, value, translatable, element⟩, _, hmakes, rfl, rfl⟩
      have hk : kind = key.kind := by
        rw [hmakes.kind, Kind.ofTag?_tag] at hkind
        exact (Option.some.inj hkind).symm
      have hkey := (@entryKey_eq_ok_iff_attributes kind child.tag 0 key translatable).mpr
        ⟨hk.symm, hmakes.name, hmakes.named, hmakes.translatable⟩
      rw [hkey]
      obtain rfl := hmakes.value
      obtain rfl := hmakes.element
      rfl

theorem forall₂_append_iff {α β : Type} {R : α → β → Prop} {xs ys : List α} {zs : List β} :
    List.Forall₂ R (xs ++ ys) zs ↔ ∃ us vs, List.Forall₂ R xs us ∧ List.Forall₂ R ys vs ∧ us ++ vs = zs := by
  constructor
  · intro h
    induction xs generalizing zs with
    | nil => exact ⟨[], zs, .nil, h, rfl⟩
    | cons x xs ih =>
      cases h with
      | cons hhead htail =>
        obtain ⟨us, vs, hus, hvs, rfl⟩ := ih htail
        exact ⟨_, vs, .cons hhead hus, hvs, rfl⟩
  · rintro ⟨us, vs, hus, hvs, rfl⟩
    exact List.rel_append hus hvs

theorem leafEntries?_eq_some_iff {k : Token} {es : List Entry} :
    leafEntries? k = some es ↔ List.Forall₂ Root.Makes (k.elements.filter Root.isOfKind) es := by
  cases k
  case empty tag => exact (Root.empty tag).entriesOf?_eq_some_iff
  all_goals simp [leafEntries?, Token.elements, eq_comm]

/-- The entries of a forest are those that its elements with the names of kinds make. -/
theorem entries?_eq_some_iff {F : Forest} {es : List Entry} :
    F.entries? = some es ↔ List.Forall₂ Root.Makes (F.elements.filter Root.isOfKind) es := by
  induction F generalizing es with
  | nil => simp [Forest.entries?, Forest.elements, eq_comm]
  | leaf k hk rest ih =>
    rw [Forest.entries?, joined_eq_some_iff, Forest.elements, List.filter_append, forall₂_append_iff]
    simp only [leafEntries?_eq_some_iff, ih]
  | element tag body written closes rest _ ih =>
    rw [Forest.entries?, joined_eq_some_iff, Forest.elements, ← List.singleton_append, List.filter_append,
      forall₂_append_iff]
    have hown := fun es => @Root.entriesOf?_eq_some_iff (.element tag body written closes) es
    simp only [← hown, ih]
    rfl

/-! ### Documents -/

/-- What makes a text a document: its tokens are those of a forest with one element, the root, outside which characters
    are white space and there are no character data sections; the attributes of the root can be read, and each child of
    the root with the name of a kind makes an entry with a key of its own. -/
structure Grammatical (t : Text) (F : Forest) (root : Root) (attributes : List Attribute) (entries : List Entry) :
    Prop where
  complete : (Markup.read t).fault = none
  forest : Forest.ofTokens? (Markup.read t).tokens = some F
  single : F.elements = [root]
  name : root.tag.name = rootName
  fields : root.tag.allAttributes = .ok attributes
  space : ∀ content, .text content ∈ F.others → AllSpace content
  sections : ∀ content, .cdata content ∉ F.others
  children : List.Forall₂ Root.Makes (root.children.elements.filter Root.isOfKind) entries
  distinct : (entries.map (·.key)).Nodup

theorem outside_of_mem_others {F : Forest} (hspace : ∀ content, .text content ∈ F.others → AllSpace content)
    (hsections : ∀ content, .cdata content ∉ F.others) : ∀ k ∈ F.others, k.Outside := by
  intro k hk
  obtain ⟨hleaf, htag⟩ := Forest.leaves_of_mem_others hk
  cases k with
  | text content => exact hspace content hk
  | cdata content => exact absurd hk (hsections content)
  | comment content => trivial
  | instruction content => trivial
  | doctype content => trivial
  | start tag => cases hleaf
  | empty tag => cases htag
  | close written => cases hleaf

/-- A text is a document by the grammar exactly if it is the text of an outline that holds together. -/
theorem grammatical_iff {t : Text} (ht : Unmarked t) {F : Forest} {root : Root} {attributes : List Attribute}
    {entries : List Entry} :
    Grammatical t F root attributes entries ↔ ∃ o : Outline, o.root = root ∧ o.tokens = F.tokens ∧ o.source = t ∧
      o.Tight ∧ o.Reads attributes entries := by
  constructor
  · intro h
    obtain ⟨before, after, htokens, hothers⟩ := Forest.tokens_of_elements_eq_singleton h.single
    have houtside := outside_of_mem_others h.space h.sections
    rw [hothers, List.forall_mem_append] at houtside
    let o : Outline := ⟨before, root, after⟩
    have ho : o.tokens = F.tokens := htokens.symm
    have hscan := scan_of_read ht h.complete
    rw [← Forest.ofTokens?_eq_some_iff.mp h.forest, ← ho] at hscan
    obtain rfl : o.source = t := by rw [(scan_eq_iff.mp hscan).1, Outline.sources_tokens]
    exact ⟨o, rfl, ho, rfl, Outline.scan_source_iff.mp hscan, houtside.1, houtside.2, h.name, h.fields,
      entries?_eq_some_iff.mpr h.children, h.distinct⟩
  · rintro ⟨o, rfl, htokens, rfl, htight, hreads⟩
    have hleaves : ∀ k : Token, k.Outside → k.isLeaf = true ∧ k.tag? = none := fun k hk => ⟨hk.isLeaf, hk.tag?⟩
    obtain ⟨hsingle, hothers⟩ := Forest.elements_eq_singleton htokens.symm (fun k hk => hleaves k (hreads.before k hk))
      (fun k hk => hleaves k (hreads.after k hk))
    have houtside : ∀ k ∈ F.others, k.Outside := by
      rw [hothers, List.forall_mem_append]
      exact ⟨hreads.before, hreads.after⟩
    have hscan : scan (withoutMark o.source) = { tokens := F.tokens, fault := none } := by
      rw [withoutMark_eq ht, ← htokens]
      exact Outline.scan_source_iff.mpr htight
    have hread := read_of_forest hscan
    refine ⟨by rw [hread], by rw [hread, Forest.ofTokens?_eq_some_iff], hsingle, hreads.name, hreads.fields,
      fun content hk => houtside _ hk, fun content hk => houtside _ hk, entries?_eq_some_iff.mp hreads.children,
      hreads.distinct⟩

theorem map_toAttribute_namespacesOf (as : List Attribute) :
    (namespacesOf as).map toAttribute = as.filter fun a => keyStart.isPrefixOf a.key := by
  induction as with
  | nil => rfl
  | cons a as ih =>
    rw [namespacesOf] at ih ⊢
    cases ha : Text.stripStart? keyStart a.key with
    | none =>
      have hno : ¬ keyStart.isPrefixOf a.key = true := fun hlead => by
        obtain ⟨label, hlabel⟩ := List.isPrefixOf_iff_prefix.mp hlead
        rw [Text.stripStart?_eq_some_iff.mpr hlabel.symm] at ha
        cases ha
      simp [ha, ih, hno]
    | some label =>
      have hkey := Text.stripStart?_eq_some_iff.mp ha
      have hyes : keyStart.isPrefixOf a.key = true := by
        rw [hkey]
        simp
      simp [ha, ih, hyes, toAttribute, ← hkey]

end StringResources.Parse

namespace StringResources
open Markup Parse

/-- A text without a byte order mark is read as a document exactly if it is one by the grammar, and then the entries are
    those of the children of the root, in order, and the namespaces are those that attributes of the root declare. -/
theorem parse_iff_grammatical {path t : Text} (ht : Unmarked t) :
    ((∃ d, parse path t = .ok d) ↔ ∃ F root attributes entries, Grammatical t F root attributes entries) ∧
    ∀ d F root attributes entries, parse path t = .ok d → Grammatical t F root attributes entries →
      d.entries = entries ∧
      d.namespaces.map Namespace.toAttribute = attributes.filter fun a => Namespace.keyStart.isPrefixOf a.key := by
  have hgrammar : ∀ {F root attributes entries}, Grammatical t F root attributes entries →
      ∃ o : Outline, parse path t = .ok (o.document path attributes entries) := by
    intro F root attributes entries h
    obtain ⟨o, -, -, ho, htight, hreads⟩ := (grammatical_iff ht).mp h
    exact ⟨o, (parse_eq_ok_iff ht).mpr ⟨o, attributes, entries, ho, htight, hreads, rfl⟩⟩
  refine ⟨⟨fun ⟨d, hd⟩ => ?_, fun ⟨F, root, attributes, entries, h⟩ => ?_⟩, fun d F root attributes entries hd h => ?_⟩
  · obtain ⟨o, attributes, entries, ho, htight, hreads, -⟩ := (parse_eq_ok_iff ht).mp hd
    obtain ⟨F, hF⟩ := exists_forest_of_reads hreads
    exact ⟨F, o.root, attributes, entries, (grammatical_iff ht).mpr ⟨o, rfl, hF.symm, ho, htight, hreads⟩⟩
  · obtain ⟨o, ho⟩ := hgrammar h
    exact ⟨_, ho⟩
  · obtain ⟨o, ho⟩ := hgrammar h
    obtain rfl := Except.ok.inj (hd.symm.trans ho)
    exact ⟨rfl, map_toAttribute_namespacesOf attributes⟩

def nested : Text :=
  "<resources xmlns:x=\x22u\x22><string name=\x22k\x22 translatable=\x22false\x22>v<string/></string><n/></resources>\n".toList

def nestedDocument : Document where
  path := []
  text := nested
  entries := [{ key := ⟨.string, ['k']⟩, value := "v<string/>".toList, translatable := false,
                element := "<string name=\x22k\x22 translatable=\x22false\x22>v<string/></string>".toList }]
  indent := none
  rootOpen := ⟨0, 23⟩
  rootClose := .endTag 84
  namespaces := [⟨['x'], ['u']⟩]

theorem parse_nested : parse [] nested = .ok nestedDocument := by decide +kernel

/-- A tag inside an entry makes no entry, even if it has the name of a kind and no attributes. -/
theorem parse_iff_grammatical_nested :
    Unmarked nested ∧ ∃ F root attributes entries, Grammatical nested F root attributes entries ∧
      entries = nestedDocument.entries ∧
      (attributes.filter fun a => Namespace.keyStart.isPrefixOf a.key) = [⟨"xmlns:x".toList, ['u']⟩] := by
  have ht : Unmarked nested := by decide
  obtain ⟨hiff, hsame⟩ := @parse_iff_grammatical [] nested ht
  obtain ⟨F, root, attributes, entries, hgrammar⟩ := hiff.mp ⟨_, parse_nested⟩
  obtain ⟨hentries, hnamespaces⟩ := hsame _ F root attributes entries parse_nested hgrammar
  exact ⟨ht, F, root, attributes, entries, hgrammar, hentries.symm, hnamespaces.symm⟩

end StringResources
