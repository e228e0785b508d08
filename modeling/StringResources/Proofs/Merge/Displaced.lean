import StringResources.Proofs.Merge.Readable

/-! Elements written into one text at two places, where the second is three bytes before the first: that is how they are
    written where a byte order mark is in the text but not in the offsets. The texts that are made are the same only if no
    declaration is written (`eq_nil_of_spliced`) and the three bytes are blanks (`eq_of_lines`). -/

namespace StringResources.Render
open Markup Namespace Parse Text

/-! ### Lines and tags -/

theorem count_block {c : Char} (hc : isIndent c = false) {indent indent' : Text}
    (h : ∀ c ∈ indent, isIndent c = true) (h' : ∀ c ∈ indent', isIndent c = true) (newline : Text) (mark : Bool)
    (elements : List Text) :
    (block indent' newline mark elements).count c = (block indent newline mark elements).count c := by
  have hnot : indent.count c = 0 :=
    List.count_eq_zero_of_not_mem fun hmem => Bool.noConfusion (hc.symm.trans (h c hmem))
  have hnot' : indent'.count c = 0 :=
    List.count_eq_zero_of_not_mem fun hmem => Bool.noConfusion (hc.symm.trans (h' c hmem))
  have hlines : ∀ e, (lines indent' newline mark e).count c = (lines indent newline mark e).count c := by
    intro e
    cases mark <;> simp [lines, hnot, hnot']
  induction elements with
  | nil => rfl
  | cons e es ih =>
    rw [block, block, List.flatMap_cons, List.flatMap_cons, List.count_append, List.count_append, hlines]
    exact congrArg _ ih

theorem exists_block_concat {elements : List Text} (hne : elements ≠ []) (indent t : Text) (mark : Bool) :
    ∃ s, block indent (newline t) mark elements = s ++ ['\n'] := by
  obtain ⟨es, e, rfl⟩ := List.eq_nil_or_concat elements |>.resolve_left hne
  obtain ⟨s, hs⟩ : ∃ s, newline t = s ++ ['\n'] := by
    rcases newline_eq t with h | h
    · exact ⟨['\r'], h⟩
    · exact ⟨[], h⟩
  refine ⟨block indent (newline t) mark es ++
    ((if mark then indent ++ marker ++ newline t else []) ++ (indent ++ e ++ s)), ?_⟩
  rw [List.concat_eq_append, block, List.flatMap_append, List.flatMap_singleton, lines, ← block]
  simp [hs]

theorem count_trimEndSpaces {c : Char} (h : isSpace c = false) (t : Text) : (trimEndSpaces t).count c = t.count c := by
  obtain ⟨w, ht, hw⟩ := exists_trimEnd isSpace t
  have hnot : c ∉ w := fun hmem => Bool.noConfusion (h.symm.trans (hw c hmem))
  rw [trimEndSpaces]
  conv_rhs => rw [ht, List.count_append, List.count_eq_zero_of_not_mem hnot]
  rfl

/-- A tag with declarations: they come before its end, or where it has none an end is added. -/
theorem exists_declare (tag : Text) {ns : List Namespace} (h : ns ≠ []) :
    ∃ body close, declare tag ns = trimEndSpaces body ++ (written ns ++ close) ∧
      (tag = body ++ close ∧ (close = ['>'] ∨ close = ['/', '>']) ∨
        tag = body ∧ close = ['>'] ∧ ∀ s, tag ≠ s ++ ['>']) := by
  refine ⟨(splitTag tag).1, (splitTag tag).2, by rw [declare_of_ne_nil h, List.append_assoc], ?_⟩
  rw [splitTag]
  split
  · next body hbody => exact Or.inl ⟨stripEnd?_eq_some_iff.mp hbody, Or.inr rfl⟩
  · next hslash =>
    cases hbody : stripEnd? ['>'] tag with
    | some body => exact Or.inl ⟨stripEnd?_eq_some_iff.mp hbody, Or.inl rfl⟩
    | none =>
      refine Or.inr ⟨rfl, rfl, fun s hs => ?_⟩
      rw [stripEnd?_eq_some_iff.mpr hs] at hbody
      cases hbody

theorem size_of_isIndent {t : Text} (h : ∀ c ∈ t, isIndent c = true) : size t = t.length := by
  induction t with
  | nil => rfl
  | cons c t ih =>
    rw [List.forall_mem_cons] at h
    have hc : c.utf8Size = 1 := by
      simp only [isIndent, Bool.or_eq_true, beq_iff_eq] at h
      rcases h.1 with rfl | rfl <;> decide
    rw [size_cons, hc, ih h.2, List.length_cons, Nat.add_comm]

theorem lineEnd_cons {c : Char} (h : c ≠ '\n') (head newline : Text) :
    lineEnd (c :: head) newline = lineEnd head newline := by
  rw [lineEnd, lineEnd, List.getLast?_cons]
  cases head.getLast? <;> simp [h]

theorem spliced_nil (opening tag body blanks rest newline added : Text) :
    spliced opening tag body blanks rest [] newline added =
      (opening ++ (tag ++ body)) ++ (lineEnd (opening ++ (tag ++ body)) newline ++ (added ++ (blanks ++ rest))) := by
  rw [spliced, declare, if_pos rfl, List.append_assoc, List.append_assoc]

theorem count_lineEnd {c : Char} {newline : Text} (h : c ∉ newline) (head : Text) :
    (lineEnd head newline).count c = 0 := by
  rw [lineEnd]
  split
  · rfl
  · exact List.count_eq_zero_of_not_mem h

/-! ### Declarations -/

section Declared
variable {t t' u u' opening start close opening' start' close' : Text}

/-- A second tag that ends in a bracket is at its end before the white space at the end of the first. -/
theorem exists_append_of_close
    (ht : opening' ++ (start' ++ (close' ++ t')) = byteOrderMark :: (opening ++ (start ++ (close ++ t))))
    (hsize : size (opening' ++ (start' ++ close')) = size (opening ++ (start ++ close)))
    (hclose : close = ['>'] ∨ close = ['/', '>']) (hclose' : close' = ['>'] ∨ close' = ['/', '>']) :
    ∃ v, byteOrderMark :: (opening ++ trimEndSpaces start) = (opening' ++ (start' ++ close')) ++ v := by
  obtain ⟨w, hstart, hw⟩ := exists_trimEnd isSpace start
  have hwhole : (opening' ++ (start' ++ close')) ++ t' =
      (byteOrderMark :: (opening ++ trimEndSpaces start)) ++ (w ++ (close ++ t)) := by
    rw [hstart] at ht
    simpa [trimEndSpaces] using ht
  rcases List.append_eq_append_iff.mp hwhole with ⟨v, hv, -⟩ | ⟨v, hv, hrest⟩
  · exact ⟨v, hv⟩
  · have hle : size v ≤ size w := by
      have hmark : byteOrderMark.utf8Size = 3 := by decide
      have hshort : size close ≤ 2 := by rcases hclose with rfl | rfl <;> decide
      have hsizes := congrArg size hv
      have htrimmed := congrArg size hstart
      simp only [size_append, size_cons, trimEndSpaces, hmark] at hsize hsizes htrimmed
      omega
    obtain ⟨r, hr, -⟩ := exists_append_of_size_le hrest.symm hle
    rcases List.eq_nil_or_concat v with rfl | ⟨v, c, rfl⟩
    · exact ⟨[], by rw [List.append_nil, hv, List.append_nil]⟩
    · -- What is left of the second tag would be white space, but ends in a bracket.
      obtain ⟨s, hs⟩ : ∃ s, close' = s ++ ['>'] := by
        rcases hclose' with rfl | rfl
        · exact ⟨[], rfl⟩
        · exact ⟨['/'], rfl⟩
      have hends : (opening' ++ (start' ++ s)) ++ ['>'] =
          (byteOrderMark :: (opening ++ trimEndSpaces start) ++ v) ++ [c] := by simpa [hs] using hv
      obtain rfl := List.singleton_inj.mp (List.append_inj' hends rfl).2
      have hspace := hw '>' (by rw [hr]; simp)
      cases hspace

/-- Where the declarations begin in the second text, a bracket comes in the first, perhaps after white space. -/
theorem spliced_ne_of_close {ns : List Namespace} (hne : ns ≠ [])
    (ht : opening' ++ (start' ++ (close' ++ t')) = byteOrderMark :: (opening ++ (start ++ (close ++ t))))
    (hsize : size (opening' ++ (start' ++ close')) = size (opening ++ (start ++ close)))
    (hclose : close = ['>'] ∨ close = ['/', '>']) (hclose' : close' = ['>'] ∨ close' = ['/', '>']) :
    opening' ++ (trimEndSpaces start' ++ (written ns ++ u')) ≠
      byteOrderMark :: (opening ++ (trimEndSpaces start ++ (written ns ++ u))) := by
  intro h
  obtain ⟨w', hstart', hw'⟩ := exists_trimEnd isSpace start'
  obtain ⟨s, hs⟩ := exists_written hne
  obtain ⟨v, hv⟩ := exists_append_of_close ht hsize hclose hclose'
  have hend : start' ++ close' = trimEndSpaces start' ++ (w' ++ close') := by
    conv_lhs => rw [hstart']
    rw [trimEndSpaces, List.append_assoc]
  have hcut : written ns ++ u' = w' ++ (close' ++ (v ++ (written ns ++ u))) := by
    have hrest : opening' ++ (trimEndSpaces start' ++ (written ns ++ u')) =
        (opening' ++ (trimEndSpaces start' ++ (w' ++ close'))) ++ v ++ (written ns ++ u) := by
      rw [← hend, ← hv, h]
      simp
    simp only [List.append_assoc] at hrest
    exact List.append_cancel_left (List.append_cancel_left hrest)
  rw [hs] at hcut
  rcases w' with - | ⟨c, - | ⟨d, w'⟩⟩
  · rcases hclose' with rfl | rfl <;> cases hcut
  · rcases hclose' with rfl | rfl <;> cases hcut
  · have hd : d = 'x' := (List.cons.inj (List.cons.inj hcut).2).1.symm
    have hspace := hw' d (by simp)
    rw [hd] at hspace
    cases hspace

end Declared

/-- Declarations cannot be written into a tag that is cut three bytes too early. -/
theorem eq_nil_of_spliced {opening tag body blanks rest opening' tag' body' blanks' rest' newline added added' : Text}
    {ns : List Namespace}
    (ht : opening' ++ (tag' ++ (body' ++ (blanks' ++ rest'))) =
      byteOrderMark :: (opening ++ (tag ++ (body ++ (blanks ++ rest)))))
    (hsize : size (opening' ++ tag') = size (opening ++ tag)) (htag : ∃ u, tag = u ++ ['>']) (hn : '>' ∉ newline)
    (hadded : added'.count '>' = added.count '>')
    (h : spliced opening' tag' body' blanks' rest' ns newline added' =
      byteOrderMark :: spliced opening tag body blanks rest ns newline added) : ns = [] := by
  by_contra hne
  obtain ⟨start, close, hdeclare, htag₁⟩ := exists_declare tag hne
  obtain ⟨start', close', hdeclare', htag'⟩ := exists_declare tag' hne
  obtain ⟨u, hu⟩ := htag
  rcases htag₁ with ⟨rfl, hclose⟩ | ⟨-, -, hnone⟩
  · rw [spliced, spliced, hdeclare, hdeclare'] at h
    rcases htag' with ⟨rfl, hclose'⟩ | ⟨rfl, rfl, -⟩
    · simp only [List.append_assoc] at ht hsize h
      exact spliced_ne_of_close hne ht hsize hclose hclose' h
    · -- The second text has one more bracket, at the end of the tag.
      have hcount := congrArg (List.count '>') h
      have hwhole := congrArg (List.count '>') ht
      have hspace : isSpace '>' = false := by decide
      have hmark : byteOrderMark ≠ '>' := by decide
      have hbracket : close.count '>' = 1 := by rcases hclose with rfl | rfl <;> decide
      simp only [List.count_append, List.count_cons, count_trimEndSpaces hspace, count_lineEnd hn, hadded, hbracket,
        List.count_nil] at hcount hwhole
      simp [hmark] at hcount hwhole
      omega
  · exact absurd hu (hnone u)

/-! ### Lines -/

/-- The lines that are added: an indentation, a tag or comment, and a line feed at the end. -/
structure Lines (indent added : Text) : Prop where
  isIndent : ∀ c ∈ indent, isIndent c = true
  bracket : ∃ c d r, added = indent ++ '<' :: c :: d :: r ∧ c ≠ '\n' ∧ d ≠ '\n'
  lineFeed : ∃ s, added = s ++ ['\n']

theorem Lines.not_mem {indent added : Text} (h : Lines indent added) : '<' ∉ indent ∧ '\n' ∉ indent :=
  ⟨fun hmem => absurd (h.isIndent _ hmem) (by decide), fun hmem => absurd (h.isIndent _ hmem) (by decide)⟩

theorem lines_block {elements : List Text} (hne : elements ≠ [])
    (h : ∀ e ∈ elements, ∃ (kind : Kind) (s : Text), e = '<' :: (kind.tag ++ s)) {indent : Text}
    (hindent : ∀ c ∈ indent, Text.isIndent c = true) (t : Text) (mark : Bool) :
    Lines indent (block indent (newline t) mark elements) :=
  ⟨hindent, exists_block_bracket hne h _ _ _, exists_block_concat hne _ _ _⟩

section Lines
variable {head blanks rest head' blanks' rest' indent added indent' added' t : Text}

/-- Lines do not commute with a short text at whose end the line feed before them is. -/
theorem lines_append_ne (hlines : Lines indent added) (hlines' : Lines indent' added')
    (hblanks : ∀ c ∈ blanks', isIndent c = true) {short : Text} (hshort : short.length ≤ 3)
    (hend : ∃ z, short = z ++ ['\n']) : added' ++ (blanks' ++ short) ≠ (blanks' ++ short) ++ added := by
  intro h
  obtain ⟨z, rfl⟩ := hend
  obtain ⟨c', d', r', rfl, hc', hd'⟩ := hlines'.bracket
  obtain ⟨c, d, r, rfl, -, -⟩ := hlines.bracket
  have hnone : '<' ∉ blanks' := fun hmem => absurd (hblanks _ hmem) (by decide)
  by_cases hmem : '<' ∈ z
  · -- The bracket in the short text is the first one of the lines, and the line feed comes too soon after it.
    obtain ⟨x, y, rfl, hx⟩ := List.eq_append_cons_of_mem hmem
    have hfirst : indent' ++ '<' :: (c' :: d' :: (r' ++ (blanks' ++ (x ++ '<' :: y ++ ['\n'])))) =
        (blanks' ++ x) ++ '<' :: (y ++ '\n' :: (indent ++ '<' :: c :: d :: r)) := by simpa using h
    have hlead : '<' ∉ blanks' ++ x := by simp [hnone, hx]
    have hafter := (append_inj_of_not_mem hfirst hlines'.not_mem.1 hlead).2
    rcases y with - | ⟨e, - | ⟨f, y⟩⟩
    · exact hc' (List.cons.inj hafter).1
    · exact hd' (List.cons.inj (List.cons.inj hafter).2).1
    · simp at hshort
      omega
  · have hfirst : indent' ++ '<' :: (c' :: d' :: (r' ++ (blanks' ++ (z ++ ['\n'])))) =
        (blanks' ++ (z ++ '\n' :: indent)) ++ '<' :: (c :: d :: r) := by simpa using h
    have hlead : '<' ∉ blanks' ++ (z ++ '\n' :: indent) := by simp [hnone, hmem, hlines.not_mem.1]
    have hindent := (append_inj_of_not_mem hfirst hlines'.not_mem.1 hlead).1
    exact hlines'.not_mem.2 (by rw [hindent]; simp)

theorem le_size_of_lines (ht : head' ++ (blanks' ++ rest') = head ++ (blanks ++ rest))
    (hsize : size (head' ++ blanks') + 3 = size (head ++ blanks)) (hblanks : ∀ c ∈ blanks', isIndent c = true)
    (hlines : Lines indent added) (hlines' : Lines indent' added') (hcount : added'.count '\n' = added.count '\n')
    (h : head' ++ (lineEnd head' (newline t) ++ (added' ++ (blanks' ++ rest'))) =
      head ++ (lineEnd head (newline t) ++ (added ++ (blanks ++ rest)))) : 3 ≤ size blanks := by
  by_contra hlt
  rw [size_append, size_append] at hsize
  obtain ⟨tail, rfl, htail⟩ := exists_append_of_size_le ht (by omega)
  rw [size_append] at hsize
  obtain ⟨short, rfl, rfl⟩ := exists_append_of_size_le htail (by omega)
  rw [size_append] at hsize
  have hnewlines : lineEnd head' (newline t) ++ (added' ++ (blanks' ++ short)) =
      (blanks' ++ short) ++ (lineEnd (head' ++ (blanks' ++ short)) (newline t) ++ added) := by
    have hcut : lineEnd head' (newline t) ++ (added' ++ (blanks' ++ short)) ++ (blanks ++ rest) =
        (blanks' ++ short) ++ (lineEnd (head' ++ (blanks' ++ short)) (newline t) ++ added) ++ (blanks ++ rest) := by
      have := List.append_cancel_left (h.trans (List.append_assoc _ _ _))
      simpa using this
    exact List.append_cancel_right hcut
  -- The added lines end with a line feed, so what is left of the head does too, and no line feed is put after it.
  obtain ⟨z, hz⟩ : ∃ z, short = z ++ ['\n'] := by
    obtain ⟨s, hs⟩ := hlines.lineFeed
    rcases List.eq_nil_or_concat short with rfl | ⟨z, c, rfl⟩
    · rw [size_nil] at hsize
      omega
    · rw [hs, List.concat_eq_append] at hnewlines
      simp only [← List.append_assoc] at hnewlines
      obtain rfl := List.singleton_inj.mp (List.append_inj' hnewlines rfl).2
      exact ⟨z, List.concat_eq_append⟩
  have hend : lineEnd (head' ++ (blanks' ++ short)) (newline t) = [] := by
    rw [lineEnd, if_pos (by simp [hz])]
  have hend' : lineEnd head' (newline t) = [] := by
    have hfeeds := congrArg (List.count '\n') hnewlines
    simp only [List.count_append, hcount, hend, List.count_nil] at hfeeds
    rw [lineEnd] at hfeeds ⊢
    split
    · rfl
    · next hlast =>
      rw [if_neg hlast] at hfeeds
      rcases newline_eq t with hn | hn <;> simp [hn] at hfeeds <;> omega
  rw [hend, hend', List.nil_append, List.nil_append] at hnewlines
  have hshort : short.length ≤ 3 := (length_le_size short).trans (by omega)
  exact lines_append_ne hlines hlines' hblanks hshort ⟨z, hz⟩ hnewlines

/-- Lines that are written three bytes earlier and make the same text are indented alike, and the three bytes are the
    last blanks after them. -/
theorem eq_of_lines (ht : head' ++ (blanks' ++ rest') = head ++ (blanks ++ rest))
    (hsize : size (head' ++ blanks') + 3 = size (head ++ blanks)) (hblanks : ∀ c ∈ blanks, isIndent c = true)
    (hblanks' : ∀ c ∈ blanks', isIndent c = true) (htrim : trimEnd isIndent head = head)
    (htrim' : trimEnd isIndent head' = head') (hlines : Lines indent added) (hlines' : Lines indent' added')
    (hcount : added'.count '\n' = added.count '\n')
    (h : head' ++ (lineEnd head' (newline t) ++ (added' ++ (blanks' ++ rest'))) =
      head ++ (lineEnd head (newline t) ++ (added ++ (blanks ++ rest)))) :
    indent' = indent ∧ ∃ w, blanks = blanks' ++ w ∧ w.length = 3 := by
  have hlarge := le_size_of_lines ht hsize hblanks' hlines hlines' hcount h
  rw [size_of_isIndent hblanks] at hlarge
  obtain ⟨u, w, rfl, hw⟩ : ∃ u w, blanks = u ++ w ∧ w.length = 3 :=
    ⟨blanks.take (blanks.length - 3), blanks.drop (blanks.length - 3), (List.take_append_drop _ _).symm, by
      rw [List.length_drop]; omega⟩
  obtain ⟨hu, hblank⟩ := List.forall_mem_append.mp hblanks
  have hcut : (head' ++ blanks') ++ rest' = (head ++ u) ++ (w ++ rest) := by simpa using ht
  obtain ⟨hheads, rfl⟩ := append_inj_of_size hcut (by
    simp only [size_append, size_of_isIndent hblank, hw] at hsize ⊢
    omega)
  have htrims := congrArg (trimEnd isIndent) hheads
  rw [trimEnd_append_of_all hblanks', trimEnd_append_of_all hu, htrim, htrim'] at htrims
  subst htrims
  obtain rfl := List.append_cancel_left hheads
  have hadded := List.append_cancel_left (List.append_cancel_left h)
  rw [List.append_assoc, ← List.append_assoc, ← List.append_assoc added] at hadded
  have hadded := List.append_cancel_right (List.append_cancel_right hadded)
  obtain ⟨c, d, r, hr, -⟩ := hlines.bracket
  obtain ⟨c', d', r', hr', -⟩ := hlines'.bracket
  rw [hr, hr'] at hadded
  exact ⟨(append_inj_of_not_mem hadded hlines'.not_mem.1 hlines.not_mem.1).1, w, rfl, hw⟩

end Lines

end StringResources.Render
