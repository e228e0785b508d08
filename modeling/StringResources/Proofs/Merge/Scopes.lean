import StringResources.Proofs.Merge.Readable

/-! Where labels are bound. A label that a tag uses is bound by that tag, by a tag around it or by the root of
    the document. A merge copies the declaration of a label for an element that uses the label and declares it
    nowhere. An element that declares the label on one tag and uses it outside of that tag gets none. Main
    statements: `uses_of_mem_entries` and `bound_plan_iff`. -/

namespace StringResources.Labels
open Markup

/-- A label on a tag, with the labels that this tag and those around it declare. -/
structure Use where
  label : Text
  scope : List Text
  deriving DecidableEq

namespace Use

def Bound (u : Use) : Prop := u.label ∈ u.scope

instance (u : Use) : Decidable u.Bound := inferInstanceAs (Decidable (u.label ∈ u.scope))

/-- The use where the tags stand in others that declare more. -/
def under (u : Use) (labels : List Text) : Use := { u with scope := u.scope ++ labels }

theorem bound_under_iff {u : Use} {labels : List Text} : (u.under labels).Bound ↔ u.Bound ∨ u.label ∈ labels :=
  List.mem_append

@[simp] theorem under_nil (u : Use) : u.under [] = u := by simp [under]

end Use

def usesOn (around : List Text) (tag : Tag) : List Use :=
  (onTag tag).map fun label => { label := label, scope := declaredOn tag ++ around }

/-- The uses of labels in tokens. `around` holds what each open element declares, innermost first. -/
def usesIn (around : List (List Text)) : List Token → List Use
  | [] => []
  | k :: ks =>
    match k with
    | .start tag => usesOn around.flatten tag ++ usesIn (declaredOn tag :: around) ks
    | .empty tag => usesOn around.flatten tag ++ usesIn around ks
    | .close _ => usesIn around.tail ks
    | _ => usesIn around ks

/-- The uses of labels in a text. -/
def uses (t : Text) : List Use := usesIn [] (Markup.read t).tokens

/-! ### Uses in elements -/

theorem usesOn_append (inner outer : List Text) (tag : Tag) :
    usesOn (inner ++ outer) tag = (usesOn inner tag).map (·.under outer) := by
  simp [usesOn, Use.under]

/-- The uses in a forest are those it has by itself, with what the elements around it declare. -/
theorem usesIn_tokens_append (F : Forest) (inner outer : List (List Text)) (ks : List Token) :
    usesIn (inner ++ outer) (F.tokens ++ ks) =
      (usesIn inner F.tokens).map (·.under outer.flatten) ++ usesIn (inner ++ outer) ks := by
  induction F generalizing inner outer ks with
  | nil => rfl
  | leaf k h rest ih =>
    cases k with
    | start tag => cases h
    | close written => cases h
    | empty tag =>
      simp only [Forest.tokens, List.cons_append, usesIn, List.flatten_append, usesOn_append, ih, List.map_append,
        List.append_assoc]
    | text content => exact ih inner outer ks
    | comment content => exact ih inner outer ks
    | cdata content => exact ih inner outer ks
    | instruction content => exact ih inner outer ks
    | doctype content => exact ih inner outer ks
  | element tag body written h rest ihb ihr =>
    -- What stands after the end tag is no longer in the scope of the tag.
    have hbody := ihb (declaredOn tag :: inner) [] (.close written :: rest.tokens)
    simp only [List.append_nil, List.flatten_nil, Use.under_nil, List.map_id'] at hbody
    have hrest := ihr inner outer ks
    simp only [Forest.tokens, List.cons_append, List.append_assoc, usesIn, List.flatten_append, usesOn_append, hbody,
      List.map_append, List.tail_cons]
    rw [← List.cons_append, ihb (declaredOn tag :: inner) outer, List.cons_append, usesIn, List.tail_cons, hrest]

theorem usesIn_addText (around : List (List Text)) (content : Text) (ks : List Token) :
    usesIn around (addText content ks) = usesIn around ks := by
  unfold addText
  split
  · rfl
  · split <;> rfl

theorem usesIn_glue (around : List (List Text)) (ks : List Token) : usesIn around (glue ks) = usesIn around ks := by
  induction ks generalizing around with
  | nil => rfl
  | cons k ks ih =>
    cases k with
    | text content => exact (usesIn_addText around content (glue ks)).trans (ih around)
    | start tag => simp only [glue, usesIn, ih]
    | empty tag => simp only [glue, usesIn, ih]
    | close written => exact ih around.tail
    | comment content => exact ih around
    | cdata content => exact ih around
    | instruction content => exact ih around
    | doctype content => exact ih around

theorem usesIn_outside_append {around : List (List Text)} {ks : List Token} (h : ∀ k ∈ ks, k.Outside) (ls : List Token) :
    usesIn around (ks ++ ls) = usesIn around ls := by
  induction ks with
  | nil => rfl
  | cons k ks ih =>
    rw [List.forall_mem_cons] at h
    refine Eq.trans ?_ (ih h.2)
    cases k <;> first | rfl | exact h.1.elim

theorem uses_of_forest {E : Forest} (h : E.Loose) (hmark : Unmarked E.source) :
    uses E.source = usesIn [] E.tokens := by
  have hscan := scan_sources h
  rw [← Forest.tokens_glue, ← Forest.source, ← Parse.withoutMark_eq hmark] at hscan
  rw [uses, read_of_forest hscan, Forest.tokens_glue, usesIn_glue]

/-- The labels that tags use are those on them. -/
theorem map_label_usesIn (around : List (List Text)) (ks : List Token) :
    (usesIn around ks).map (·.label) = (ks.filterMap Token.tag?).flatMap onTag := by
  induction ks generalizing around with
  | nil => rfl
  | cons k ks ih => cases k <;> simp [usesIn, usesOn, Token.tag?, List.filterMap_cons, ih, Function.comp_def]

/-- An element needs the labels it uses that none of its tags declares. -/
theorem mem_needed_iff {element label : Text} :
    label ∈ needed element ↔ (∃ u ∈ uses element, u.label = label) ∧ ∀ tag ∈ tagsOf element, label ∉ declaredOn tag := by
  rw [← List.mem_map, uses, map_label_usesIn]
  simp [needed, tagsOf]

theorem declaredOn_of_allAttributes {tag : Tag} {attributes : List Attribute} (h : tag.allAttributes = .ok attributes) :
    declaredOn tag = (Parse.namespacesOf attributes).map (·.label) := by
  have hreadable : readable tag = attributes := by
    rw [readable, mapM_id_eq_ok_iff.mp h]
    simp [Except.toOption, Function.comp_def]
  rw [declaredOn, hreadable, Parse.namespacesOf, List.map_filterMap]
  refine List.filterMap_congr fun a _ => ?_
  simp [declared?, Function.comp_def]

/-- The uses in a document: those on the tag of its root, and those of the children below that tag. -/
theorem uses_of_outline {o : Parse.Outline} {attributes : List Attribute} {entries : List Entry} (htight : o.Tight)
    (hreads : o.Reads attributes entries) (hmark : Unmarked o.source) :
    uses o.source = usesOn [] o.root.tag ++
      (usesIn [] o.root.children.tokens).map (·.under ((Parse.namespacesOf attributes).map (·.label))) := by
  rw [uses, Parse.Outline.read_source htight hreads hmark, Parse.Outline.tokens, usesIn_outside_append hreads.before,
    ← declaredOn_of_allAttributes hreads.fields]
  have hafter : ∀ around, usesIn around o.after = [] := fun around => by
    have := @usesIn_outside_append around o.after hreads.after []
    rwa [List.append_nil] at this
  cases o.root with
  | empty tag => simp [Parse.Root.tokens, Parse.Root.tag, Parse.Root.children, Forest.tokens, usesIn, hafter]
  | element tag body written closes =>
    have hbody := usesIn_tokens_append body [] [declaredOn tag] (.close written :: o.after)
    simp only [List.nil_append, List.flatten_cons, List.flatten_nil, List.append_nil] at hbody
    simp [Parse.Root.tokens, Parse.Root.tag, Parse.Root.children, usesIn, hbody, hafter]

end StringResources.Labels

namespace StringResources
open Markup Parse Render Labels

def Document.labels (d : Document) : List Text := d.namespaces.map (·.label)

/-- The uses in the element of an entry stand in its document one after the other, below the root. -/
theorem uses_of_mem_entries {path t : Text} (ht : Unmarked t) {d : Document} (h : parse path t = .ok d) {e : Entry}
    (he : e ∈ d.entries) : ((uses e.element).map (·.under d.labels)).IsInfix (uses t) := by
  obtain ⟨o, attributes, rfl, htight, hreads, hd⟩ := exists_outline_of_parse ht h
  obtain ⟨B, A, child, hchildren, hmakes, hloose⟩ := exists_child_of_mem_entries? htight.root.2 hreads.children he
  have hsource : child.forest.source = e.element := by rw [Root.source_forest, hmakes.element]
  have hmark : Unmarked child.forest.source := by rw [hsource]; exact hmakes.unmarked
  have hlabels : d.labels = (namespacesOf attributes).map (·.label) := by rw [hd]; rfl
  rw [uses_of_outline htight hreads ht, hchildren, ← hsource, uses_of_forest hloose hmark, ← hlabels]
  have htokens := usesIn_tokens_append B [] [] (child.forest.tokens ++ A.tokens)
  have hrest := usesIn_tokens_append child.forest [] [] A.tokens
  simp only [List.append_nil, List.flatten_nil, Use.under_nil, List.map_id'] at htokens hrest
  rw [Forest.tokens_append, Forest.tokens_append, htokens, hrest, List.map_append, List.map_append]
  exact ⟨usesOn [] o.root.tag ++ (usesIn [] B.tokens).map (·.under d.labels),
    (usesIn [] A.tokens).map (·.under d.labels),
    by simp only [List.append_assoc]⟩

/-! ### What a merge binds -/

/-- Whether the label of a use is bound after a merge: in the element, by the root of the locale document, or because an
    added element uses it and declares it on none of its tags. -/
def MergePlan.Covers (plan : MergePlan) (locale : Document) (u : Use) : Prop :=
  u.Bound ∨ u.label ∈ locale.labels ∨
    ∃ e ∈ plan.additions, (∃ v ∈ uses e.element, v.label = u.label) ∧ ∀ tag ∈ tagsOf e.element, u.label ∉ declaredOn tag

theorem declares_iff {d : Document} {label : Text} : d.declares label = true ↔ label ∈ d.labels := by
  simp [Document.declares, Document.labels]

/-- The labels whose declarations a plan copies: those of the base that the locale document lacks and an element needs. -/
theorem mem_labels_copied_iff {plan : MergePlan} {base locale : Document} {label : Text} :
    label ∈ (plan.copied base locale).map (·.label) ↔
      label ∈ base.labels ∧ label ∉ locale.labels ∧ ∃ e ∈ plan.additions, label ∈ needed e.element := by
  simp only [MergePlan.copied, missing, List.mem_map, List.mem_filter, Bool.and_eq_true, Bool.not_eq_true',
    ← Bool.not_eq_true, declares_iff, List.contains_iff_mem, List.mem_flatMap, Document.labels]
  constructor
  · rintro ⟨n, ⟨hn, ⟨element, ⟨e, he, rfl⟩, hneeded⟩, hlacks⟩, rfl⟩
    exact ⟨⟨n, hn, rfl⟩, hlacks, e, he, hneeded⟩
  · rintro ⟨⟨n, hn, rfl⟩, hlacks, e, he, hneeded⟩
    exact ⟨n, ⟨hn, ⟨_, ⟨e, he, rfl⟩, hneeded⟩, hlacks⟩, rfl⟩

section Plan
variable {basePath baseText path t : Text} {base locale : Document} {options : MergeOptions} {path' out : Text}
  {merged : Document}

/-- The root of a merged document declares what it did and what was copied. It can declare more only if the copied
    declarations leave a quote open. -/
theorem namespaces_of_parse_plan (hbaseText : Unmarked baseText) (hbase : parse basePath baseText = .ok base)
    (ht : Unmarked t) (hlocale : parse path t = .ok locale)
    (hrender : (MergePlan.compute base locale options).render base locale options.markUntranslated = some out)
    (hmerged : parse path' out = .ok merged) :
    ∃ more, merged.namespaces =
        locale.namespaces ++ (MergePlan.compute base locale options).copied base locale ++ more ∧
      (Closed ((MergePlan.compute base locale options).copied base locale) → more = []) := by
  by_cases hclosed : Closed ((MergePlan.compute base locale options).copied base locale)
  · obtain ⟨out', merged', hrender', -, hmerged', -, hnamespaces⟩ :=
      parse_plan_of_closed hbaseText hbase ht hlocale options options.markUntranslated hclosed path'
    obtain rfl := Option.some.inj (hrender.symm.trans hrender')
    obtain rfl := Except.ok.inj (hmerged.symm.trans hmerged')
    exact ⟨[], by rw [hnamespaces, List.append_nil]; rfl, fun _ => rfl⟩
  · have hne : (MergePlan.compute base locale options).copied base locale ≠ [] := by
      intro hnil
      rw [hnil] at hclosed
      exact hclosed rfl
    have helements : (MergePlan.compute base locale options).additions.map (·.element) ≠ [] := by
      intro hnil
      rw [MergePlan.copied, hnil, missing_nil] at hne
      exact hne rfl
    obtain ⟨hns, hlabels⟩ := wellWritten_of_parse hbase
    have hsub : ((MergePlan.compute base locale options).copied base locale).Sublist base.namespaces := missing_labels.1
    obtain ⟨o, attributes, rfl, htight, hreads, hd⟩ := exists_outline_of_parse ht hlocale
    have hsome := @render_document o attributes locale.entries path _ helements
      { mark := options.markUntranslated, fallbackIndent := base.indent, namespaces := base.namespaces }
    rw [← hd] at hsome
    obtain rfl := Option.some.inj (hrender.symm.trans hsome)
    obtain ⟨-, -, -, bs, -, -, -, hnamespaces⟩ := exists_rest_of_parse_merged htight hreads ht hne
      (fun n hn => hns n (hsub.subset hn)) (hlabels.sublist (hsub.map _)) hmerged
    refine ⟨namespacesOf bs, ?_, fun h => absurd h hclosed⟩
    rw [hnamespaces, hd]
    rfl

/-- A use of an added element stands in the base and in the merged document below their roots. If its label is bound in
    the base, it is bound after the merge where the merge covers it, and nowhere else, unless a copied declaration leaves
    a quote open. -/
theorem bound_plan_iff (hbaseText : Unmarked baseText) (hbase : parse basePath baseText = .ok base)
    (ht : Unmarked t) (hlocale : parse path t = .ok locale)
    (hrender : (MergePlan.compute base locale options).render base locale options.markUntranslated = some out)
    (hmerged : parse path' out = .ok merged) {e : Entry} (he : e ∈ (MergePlan.compute base locale options).additions) :
    ((uses e.element).map (·.under base.labels)).IsInfix (uses baseText) ∧
    (Closed ((MergePlan.compute base locale options).copied base locale) →
      ((uses e.element).map (·.under merged.labels)).IsInfix (uses out)) ∧
    ∀ u ∈ uses e.element, (u.under base.labels).Bound →
      ((MergePlan.compute base locale options).Covers locale u → (u.under merged.labels).Bound) ∧
      (Closed ((MergePlan.compute base locale options).copied base locale) →
        ((u.under merged.labels).Bound ↔ (MergePlan.compute base locale options).Covers locale u)) := by
  obtain ⟨more, hnamespaces, hmore⟩ := namespaces_of_parse_plan hbaseText hbase ht hlocale hrender hmerged
  have hlabels : merged.labels = locale.labels ++
      ((MergePlan.compute base locale options).copied base locale).map (·.label) ++ more.map (·.label) := by
    rw [Document.labels, hnamespaces, List.map_append, List.map_append, Document.labels]
  refine ⟨uses_of_mem_entries hbaseText hbase (MergePlan.additions_sublist.subset he), fun hclosed => ?_,
    fun u hu hbound => ?_⟩
  · obtain ⟨out', merged', hrender', hmark, hmerged', hentries, -⟩ :=
      parse_plan_of_closed hbaseText hbase ht hlocale options options.markUntranslated hclosed path'
    obtain rfl := Option.some.inj (hrender.symm.trans hrender')
    obtain rfl := Except.ok.inj (hmerged.symm.trans hmerged')
    exact uses_of_mem_entries hmark hmerged (hentries ▸ List.mem_append_right _ he)
  · have hcovers : (MergePlan.compute base locale options).Covers locale u → (u.under merged.labels).Bound := by
      rw [Use.bound_under_iff, hlabels, List.mem_append, List.mem_append]
      rintro (hinside | hroot | ⟨f, hf, hneeded⟩)
      · exact Or.inl hinside
      · exact Or.inr (Or.inl (Or.inl hroot))
      · rcases Use.bound_under_iff.mp hbound with hinside | hbase
        · exact Or.inl hinside
        · by_cases hroot : u.label ∈ locale.labels
          · exact Or.inr (Or.inl (Or.inl hroot))
          · have hcopied := mem_labels_copied_iff.mpr ⟨hbase, hroot, f, hf, mem_needed_iff.mpr hneeded⟩
            exact Or.inr (Or.inl (Or.inr hcopied))
    refine ⟨hcovers, fun hclosed => ⟨fun hmergedBound => ?_, hcovers⟩⟩
    rw [Use.bound_under_iff, hlabels, hmore hclosed, List.map_nil, List.append_nil, List.mem_append] at hmergedBound
    rcases hmergedBound with hinside | hroot | hcopied
    · exact Or.inl hinside
    · exact Or.inr (Or.inl hroot)
    · obtain ⟨-, -, f, hf, hneeded⟩ := mem_labels_copied_iff.mp hcopied
      exact Or.inr (Or.inr ⟨f, hf, mem_needed_iff.mp hneeded⟩)

end Plan

/-- A label that only the root of the base declares is bound after a merge, for its declaration is copied. -/
theorem bound_plan_copied :
    ∃ base locale out merged,
      parse [] "<resources xmlns:p=\x22u\x22><string name=\x22k\x22><b><p:i/></b></string></resources>".toList = .ok base ∧
      parse [] "<resources/>".toList = .ok locale ∧
      (MergePlan.compute base locale {}).render base locale true = some out ∧ parse [] out = .ok merged ∧
      (Use.under { label := ['p'], scope := [] } merged.labels).Bound := by
  have hbase : parse [] "<resources xmlns:p=\x22u\x22><string name=\x22k\x22><b><p:i/></b></string></resources>".toList =
      .ok
      { path := [], text := "<resources xmlns:p=\x22u\x22><string name=\x22k\x22><b><p:i/></b></string></resources>".toList
        entries := [{ key := ⟨.string, ['k']⟩, value := "<b><p:i/></b>".toList, translatable := true,
                      element := "<string name=\x22k\x22><b><p:i/></b></string>".toList }]
        indent := none, rootOpen := ⟨0, 23⟩, rootClose := .endTag 62, namespaces := [⟨['p'], ['u']⟩] } := by
    decide +kernel
  obtain ⟨out, merged, hrender, -, hmerged, -⟩ :=
    parse_plan_of_closed (by decide) hbase (by decide) parse_root_alone {} true (by decide +kernel) []
  have hadded := @bound_plan_iff [] _ [] _ _ _ {} [] out merged (by decide) hbase (by decide) parse_root_alone hrender
    hmerged { key := ⟨.string, ['k']⟩, value := "<b><p:i/></b>".toList, translatable := true,
              element := "<string name=\x22k\x22><b><p:i/></b></string>".toList } (by decide +kernel)
  obtain ⟨-, -, hbound⟩ := hadded
  refine ⟨_, _, out, merged, hbase, parse_root_alone, hrender, hmerged,
    (hbound _ (by decide +kernel) (by decide)).1 (Or.inr (Or.inr ⟨_, List.mem_singleton.mpr rfl, ?_⟩))⟩
  exact ⟨⟨_, by decide +kernel, rfl⟩, by decide +kernel⟩

/-- An element that declares a label on one tag and uses it outside of that tag: the declaration of the base's root is
    not copied. -/
theorem bound_plan_shadowed :
    ∃ base locale out merged,
      parse [] "<resources xmlns:p=\x22u\x22><string name=\x22k\x22><b xmlns:p=\x22v\x22>x</b><p:i/></string></resources>".toList =
        .ok base ∧ parse [] "<resources/>".toList = .ok locale ∧
      (MergePlan.compute base locale { markUntranslated := false }).render base locale false = some out ∧
      parse [] out = .ok merged ∧
      ∃ e ∈ (MergePlan.compute base locale { markUntranslated := false }).additions, ∃ u ∈ uses e.element,
        (u.under base.labels).Bound ∧ ¬ (u.under merged.labels).Bound := by
  have hbase : parse []
      "<resources xmlns:p=\x22u\x22><string name=\x22k\x22><b xmlns:p=\x22v\x22>x</b><p:i/></string></resources>".toList = .ok
      { path := []
        text := "<resources xmlns:p=\x22u\x22><string name=\x22k\x22><b xmlns:p=\x22v\x22>x</b><p:i/></string></resources>".toList
        entries := [{ key := ⟨.string, ['k']⟩, value := "<b xmlns:p=\x22v\x22>x</b><p:i/>".toList, translatable := true,
                      element := "<string name=\x22k\x22><b xmlns:p=\x22v\x22>x</b><p:i/></string>".toList }]
        indent := none, rootOpen := ⟨0, 23⟩, rootClose := .endTag 75, namespaces := [⟨['p'], ['u']⟩] } := by
    decide +kernel
  obtain ⟨out, merged, hrender, -, hmerged, -, hnamespaces⟩ := parse_plan_of_closed (by decide) hbase (by decide)
    parse_root_alone { markUntranslated := false } false (by decide +kernel) []
  have hlabels : merged.labels = [] := by
    rw [Document.labels, hnamespaces]
    decide +kernel
  refine ⟨_, _, out, merged, hbase, parse_root_alone, hrender, hmerged, _, List.mem_singleton.mpr rfl,
    { label := ['p'], scope := [] }, by decide +kernel, by decide, ?_⟩
  rw [hlabels]
  decide

end StringResources
