import StringResources.Proofs.Merge.RootTag
import StringResources.Proofs.Resource.Placed

/-! Elements added at the end of a root. Where the children of the root are cut there is no markup, so they
    are a forest again (`exists_trimmed`), and the new elements follow as children of their own
    (`exists_block`). -/

namespace StringResources.Markup.Forest
open Parse

/-! ### Cutting at the end -/

theorem placed_of_not_mem {F : Forest} (h : '<' ∉ F.source) (lead : Text) : F.placed lead = [] := by
  induction F generalizing lead with
  | nil => rfl
  | leaf k hk rest ih =>
    rw [source_leaf, List.mem_append, not_or] at h
    by_cases htext : k.isText = false
    · obtain ⟨s, hs⟩ := Token.exists_source htext
      exact absurd (by rw [hs]; exact List.mem_cons_self) h.1
    · cases k <;> first | exact absurd rfl htext | skip
      exact ih h.2 _
  | element tag body written hclose rest _ _ =>
    have : '<' ∈ (Token.start tag).source := List.mem_cons_self
    exact absurd (List.mem_append_left _ this) h

/-- A cut with no bracket after it is past all markup. -/
theorem exists_append_of_not_mem {s r b w : Text} (hs : ∃ u, s = u ++ ['>']) (h : s ++ r = b ++ w) (hw : '>' ∉ w) :
    ∃ b', b = s ++ b' ∧ r = b' ++ w := by
  rcases List.append_eq_append_iff.mp h with ⟨b', hb, hr⟩ | ⟨v, hsv, hwv⟩
  · exact ⟨b', hb, hr⟩
  · obtain ⟨u, rfl⟩ := hs
    rcases List.eq_nil_or_concat v with rfl | ⟨v, c, rfl⟩
    · rw [List.append_nil] at hsv
      exact ⟨[], by rw [hsv, List.append_nil], hwv.symm⟩
    · rw [List.concat_eq_append, ← List.append_assoc] at hsv
      obtain rfl := List.singleton_inj.mp (List.append_inj' hsv rfl).2
      exact absurd (by rw [hwv]; simp) hw

/-- What remains of a forest before characters without brackets is a forest with the same elements in their places. -/
theorem exists_trimmed {F : Forest} (hF : F.Loose) {b w : Text} (h : F.source = b ++ w) (hopen : '<' ∉ w)
    (hclose : '>' ∉ w) : ∃ G : Forest, G.Loose ∧ G.source = b ∧ ∀ lead, G.placed lead = F.placed lead := by
  induction F generalizing b with
  | nil =>
    obtain ⟨rfl, -⟩ := List.append_eq_nil_iff.mp h.symm
    exact ⟨nil, loose_nil, rfl, fun lead => rfl⟩
  | leaf k hk rest ih =>
    obtain ⟨hloose, hrest⟩ := loose_leaf_iff.mp hF
    rw [source_leaf] at h
    have hrec : ∀ b', b = k.source ++ b' → rest.source = b' ++ w → ∃ G : Forest, G.Loose ∧ G.source = b ∧
        ∀ lead, G.placed lead = (leaf k hk rest).placed lead := by
      rintro b' rfl hr
      obtain ⟨G, hG, hsource, hplaced⟩ := ih hrest hr
      refine ⟨leaf k hk G, loose_leaf_iff.mpr ⟨hloose, hG⟩, by rw [source_leaf, hsource], fun lead => ?_⟩
      rw [placed, hplaced, placed]
    by_cases htext : k.isText = false
    · obtain ⟨b', hb, hr⟩ := exists_append_of_not_mem (Token.exists_source_concat htext) h hclose
      exact hrec b' hb hr
    · rcases List.append_eq_append_iff.mp h with ⟨b', hb, hr⟩ | ⟨v, hk', hw⟩
      · exact hrec b' hb hr
      · -- The cut is in these characters, and only characters follow.
        cases k <;> first | exact absurd rfl htext | skip
        next content =>
          have hcontent : content = b ++ v := hk'
          have hb : '<' ∉ b := fun hmem => hloose (hcontent ▸ List.mem_append_left v hmem)
          have hr : '<' ∉ rest.source := fun hmem => hopen (hw ▸ List.mem_append_right v hmem)
          exact ⟨text b, loose_text hb, source_text b, fun lead => (placed_of_not_mem hr _).symm⟩
  | element tag body written hname rest _ ih =>
    obtain ⟨hstart, hbody, hend, hrest⟩ := loose_element_iff.mp hF
    have hsource : (element tag body written hname rest).source = elementSource tag body written ++ rest.source := by
      simp [elementSource]
    have hlast : ∃ u, elementSource tag body written = u ++ ['>'] :=
      ⟨(Token.start tag).source ++ (body.source ++ ('<' :: '/' :: written)), by simp [elementSource, Token.source]⟩
    rw [hsource] at h
    obtain ⟨b', rfl, hr⟩ := exists_append_of_not_mem hlast h hclose
    obtain ⟨G, hG, hGsource, hplaced⟩ := ih hrest hr
    refine ⟨element tag body written hname G, loose_element_iff.mpr ⟨hstart, hbody, hend, hG⟩, ?_, fun lead => ?_⟩
    · rw [← hGsource]
      simp [elementSource]
    · rw [placed, hplaced, placed]

end StringResources.Markup.Forest

namespace StringResources.Render
open Markup Parse Text

/-! ### The new elements -/

/-- The comment before an element. -/
def markerToken : Token := .comment " untranslated ".toList

theorem loose_markerToken : markerToken.Loose := by
  have hnext : next ('<' :: marker.tail) = .ok (markerToken, []) := by decide +kernel
  exact (next_alone hnext).2

theorem loose_rootEnd : (Token.close rootName).Loose := by
  have hnext : next ('<' :: rootEnd.tail) = .ok (.close rootName, []) := by decide +kernel
  exact (next_alone hnext).2

/-- The forest of the line of the comment. -/
def markerForest (indent newline : Text) : Forest :=
  (Forest.text indent).append (.leaf markerToken rfl (.text newline))

/-- The forest of the lines of an element whose forest is `E`. -/
def linesForest (indent newline : Text) (mark : Bool) (E : Forest) : Forest :=
  (if mark then markerForest indent newline else .nil).append
    ((Forest.text indent).append (E.append (.text newline)))

theorem entries?_text (content : Text) : (Forest.text content).entries? = some [] := joined_nil _

theorem source_markerForest (indent newline : Text) :
    (markerForest indent newline).source = indent ++ (marker ++ newline) := by
  have hmarker : (Forest.leaf markerToken rfl (.text newline)).source = marker ++ newline := by
    exact congrArg (marker ++ ·) (Forest.source_text newline)
  rw [markerForest, Forest.source_append, Forest.source_text, hmarker]

theorem source_linesForest (indent newline : Text) (mark : Bool) (E : Forest) :
    (linesForest indent newline mark E).source = lines indent newline mark E.source := by
  cases mark <;> simp [linesForest, source_markerForest, lines]

theorem entries?_linesForest (indent newline : Text) (mark : Bool) (E : Forest) :
    (linesForest indent newline mark E).entries? = E.entries? := by
  have hmarker : (if mark then markerForest indent newline else .nil).entries? = some [] := by
    cases mark with
    | false => rfl
    | true =>
      rw [if_pos rfl, markerForest, Forest.entries?_append, entries?_text, joined_nil]
      exact (joined_nil _).trans (entries?_text newline)
  rw [linesForest, Forest.entries?_append, hmarker, joined_nil, Forest.entries?_append, entries?_text, joined_nil,
    Forest.entries?_append, entries?_text]
  cases E.entries? <;> simp [joined]

theorem loose_linesForest {indent newline : Text} (hi : '<' ∉ indent) (hn : '<' ∉ newline) (mark : Bool) {E : Forest}
    (hE : E.Loose) : (linesForest indent newline mark E).Loose := by
  have hmarker : (if mark then markerForest indent newline else .nil).Loose := by
    cases mark with
    | false => exact Forest.loose_nil
    | true =>
      exact (Forest.loose_text hi).append (Forest.loose_leaf_iff.mpr ⟨loose_markerToken, Forest.loose_text hn⟩)
  exact hmarker.append ((Forest.loose_text hi).append (hE.append (Forest.loose_text hn)))

/-- What stands between the end of a line and an element that is added after it. -/
def leadIn (indent newline : Text) (mark : Bool) : Text := (if mark then indent ++ marker ++ newline else []) ++ indent

theorem lines_eq (indent newline : Text) (mark : Bool) (element : Text) :
    lines indent newline mark element = leadIn indent newline mark ++ (element ++ newline) := by
  simp [lines, leadIn]

/-- Entries whose elements are added after `lead`, each with the text before it. -/
def places (indent newline : Text) (mark : Bool) (lead : Text) : List Entry → List (Text × Entry)
  | [] => []
  | e :: es =>
    (lead ++ leadIn indent newline mark, e) ::
      places indent newline mark (lead ++ lines indent newline mark e.element) es

theorem placed_linesForest (indent newline : Text) (mark : Bool) (child : Root) (lead : Text) :
    (linesForest indent newline mark child.forest).placed lead = [(lead ++ leadIn indent newline mark, child)] := by
  cases mark with
  | false => simp [linesForest, Forest.append, Forest.placed_append, Root.placed_forest, leadIn]
  | true =>
    have hmarker : (markerForest indent newline).placed lead = [] := rfl
    simp [linesForest, Forest.placed_append, Root.placed_forest, leadIn, hmarker, source_markerForest]

/-- New elements are a forest that makes their entries, in the places where they are added. -/
theorem exists_block {indent newline : Text} (hi : '<' ∉ indent) (hn : '<' ∉ newline) (mark : Bool)
    {additions : List Entry} (h : ∀ e ∈ additions, ∃ child : Root, child.Makes e ∧ child.forest.Loose) :
    ∃ B : Forest, B.Loose ∧ B.source = block indent newline mark (additions.map (·.element)) ∧
      B.entries? = some additions ∧ ∀ lead, List.Forall₂ (fun p q => p.1 = q.1 ∧ p.2.Makes q.2) (B.placed lead)
        (places indent newline mark lead additions) := by
  induction additions with
  | nil => exact ⟨.nil, Forest.loose_nil, rfl, rfl, fun lead => .nil⟩
  | cons e additions ih =>
    rw [List.forall_mem_cons] at h
    obtain ⟨⟨child, hmakes, hchild⟩, h⟩ := h
    obtain ⟨B, hB, hBsource, hBentries, hBplaced⟩ := ih h
    have hsource : (linesForest indent newline mark child.forest).source = lines indent newline mark e.element := by
      rw [source_linesForest, Root.source_forest, hmakes.element]
    refine ⟨(linesForest indent newline mark child.forest).append B, (loose_linesForest hi hn mark hchild).append hB,
      ?_, ?_, fun lead => ?_⟩
    · rw [Forest.source_append, hsource, hBsource]
      rfl
    · rw [Forest.entries?_append, entries?_linesForest, hmakes.entries?_forest, hBentries]
      rfl
    · rw [Forest.placed_append, placed_linesForest, hsource]
      exact .cons ⟨rfl, hmakes⟩ (hBplaced _)

end StringResources.Render
