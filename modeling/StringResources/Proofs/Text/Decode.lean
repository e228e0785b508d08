import StringResources.Text.Encoding

/-! The UTF-8 form of a text is read back as the text. Bytes that are no such form are read as far as they are one:
    the text that is returned is the longest with whose form they begin. Main statements: `decode_encode`,
    `decode_eq_ok_iff` and `decode_eq_error_iff`, and of bytes as they are shown
    `lossy_encode_append` and `lossy_flaw`. -/

namespace StringResources.Text

theorem encode_cons (c : Char) (t : Text) : encode (c :: t) = String.utf8EncodeChar c ++ encode t := rfl

theorem decodeStart_of_none {b : Bytes} (h : firstChar? b = none) : decodeStart b = ([], b) := by
  rw [decodeStart]
  split
  · rfl
  · next hc => rw [h] at hc; cases hc

theorem decodeStart_of_some {b : Bytes} {c : Char} (h : firstChar? b = some c) :
    decodeStart b = (c :: (decodeStart (b.drop c.utf8Size)).1, (decodeStart (b.drop c.utf8Size)).2) := by
  rw [decodeStart]
  split
  · next hn => rw [h] at hn; cases hn
  · next d hd =>
    rw [h] at hd
    obtain rfl := Option.some.inj hd
    rfl

theorem decodeStart_encode (t : Text) : decodeStart (encode t) = (t, []) := by
  induction t with
  | nil => exact decodeStart_of_none (by decide)
  | cons c t ih =>
    have hdrop : (String.utf8EncodeChar c ++ encode t).drop c.utf8Size = encode t := by
      rw [← String.length_utf8EncodeChar, List.drop_left]
    rw [encode_cons, decodeStart_of_some (firstChar?_eq_some_iff.mpr ⟨_, rfl⟩), hdrop, ih]

theorem decode_encode (t : Text) : decode (encode t) = .ok t := by rw [decode, decodeStart_encode]

theorem encode_injective : Function.Injective encode := fun s t h =>
  Except.ok.inj ((decode_encode s).symm.trans (h ▸ decode_encode t))

/-! ### Bytes that are no form of a text -/

theorem isValidUTF8_iff {b : Bytes} : b.toByteArray.IsValidUTF8 ↔ ∃ t, b = encode t := by
  constructor
  · rintro ⟨t, ht⟩
    exact ⟨t, List.toByteArray_inj.mp ht⟩
  · rintro ⟨t, rfl⟩
    exact ⟨t, rfl⟩

/-- Bytes begin with the form of a text, and no longer beginning of them is the form of one. -/
structure LongestStart (t : Text) (b : Bytes) : Prop where
  begins : encode t <+: b
  longest : ∀ s : Bytes, s <+: b → s.toByteArray.IsValidUTF8 → s.length ≤ (encode t).length

/-- The longest beginning of bytes tells the text. -/
theorem LongestStart.unique {s t : Text} {b : Bytes} (hs : LongestStart s b) (ht : LongestStart t b) : s = t := by
  have hlength : (encode s).length = (encode t).length :=
    Nat.le_antisymm (ht.longest _ hs.begins (isValidUTF8_iff.mpr ⟨s, rfl⟩))
      (hs.longest _ ht.begins (isValidUTF8_iff.mpr ⟨t, rfl⟩))
  have hbegins : encode s <+: encode t := List.prefix_of_prefix_length_le hs.begins ht.begins (Nat.le_of_eq hlength)
  have hdecode := decode_encode s
  rw [hbegins.eq_of_length hlength, decode_encode] at hdecode
  exact (Except.ok.inj hdecode).symm

theorem encode_decodeStart (b : Bytes) : encode (decodeStart b).1 ++ (decodeStart b).2 = b := by
  induction hn : b.length using Nat.strongRecOn generalizing b with
  | ind n ih =>
    cases hfirst : firstChar? b with
    | none => rw [decodeStart_of_none hfirst]; rfl
    | some c =>
      obtain ⟨r, rfl⟩ := firstChar?_eq_some_iff.mp hfirst
      have hdrop : (String.utf8EncodeChar c ++ r).drop c.utf8Size = r := by
        rw [← String.length_utf8EncodeChar, List.drop_left]
      have hshorter : r.length < n := by
        have := Char.utf8Size_pos c
        rw [← hn, List.length_append, String.length_utf8EncodeChar]
        omega
      rw [decodeStart_of_some hfirst, hdrop, encode_cons, List.append_assoc, ih r.length hshorter r rfl]

/-- Every text with whose form bytes begin is a beginning of the text that is read. -/
theorem prefix_decodeStart {t : Text} {b : Bytes} (h : encode t <+: b) : t <+: (decodeStart b).1 := by
  induction t generalizing b with
  | nil => exact List.nil_prefix
  | cons c t ih =>
    obtain ⟨r, rfl⟩ := h
    rw [encode_cons, List.append_assoc]
    have hdrop : (String.utf8EncodeChar c ++ (encode t ++ r)).drop c.utf8Size = encode t ++ r := by
      rw [← String.length_utf8EncodeChar, List.drop_left]
    rw [decodeStart_of_some (firstChar?_eq_some_iff.mpr ⟨_, rfl⟩), hdrop, List.cons_prefix_cons]
    exact ⟨rfl, ih ⟨r, rfl⟩⟩

theorem longestStart_decodeStart (b : Bytes) : LongestStart (decodeStart b).1 b where
  begins := ⟨_, encode_decodeStart b⟩
  longest := by
    intro s hs hvalid
    obtain ⟨t, rfl⟩ := isValidUTF8_iff.mp hvalid
    obtain ⟨r, hr⟩ := prefix_decodeStart hs
    rw [← hr, encode, encode, List.flatMap_append, List.length_append]
    exact Nat.le_add_right _ _

theorem decode_eq_ok_iff {b : Bytes} {t : Text} : decode b = .ok t ↔ b = encode t := by
  constructor
  · intro h
    have hsource := encode_decodeStart b
    unfold decode at h
    split at h
    · next s hs =>
      obtain rfl := Except.ok.inj h
      rw [hs, List.append_nil] at hsource
      exact hsource.symm
    · cases h
  · rintro rfl
    exact decode_encode t

theorem isOk_decode_iff {b : Bytes} : (decode b).isOk = true ↔ ∃ t, b = encode t := by
  constructor
  · intro h
    cases hdecode : decode b with
    | error t => rw [hdecode] at h; cases h
    | ok t => exact ⟨t, decode_eq_ok_iff.mp hdecode⟩
  · rintro ⟨t, rfl⟩
    rw [decode_encode]
    rfl

theorem longestStart_of_decode {b : Bytes} {t : Text} (h : decode b = .error t) : LongestStart t b := by
  have hstart := longestStart_decodeStart b
  unfold decode at h
  split at h
  · cases h
  · next s r _ hs =>
    obtain rfl := Except.error.inj h
    rw [hs] at hstart
    exact hstart

theorem decode_eq_error_iff {b : Bytes} {t : Text} :
    decode b = .error t ↔ ¬ b.toByteArray.IsValidUTF8 ∧ LongestStart t b := by
  constructor
  · intro h
    refine ⟨fun hvalid => ?_, longestStart_of_decode h⟩
    obtain ⟨s, hs⟩ := isValidUTF8_iff.mp hvalid
    rw [decode_eq_ok_iff.mpr hs] at h
    cases h
  · rintro ⟨hinvalid, ht⟩
    rcases hdecode : decode b with s | s
    · rw [(longestStart_of_decode hdecode).unique ht]
    · exact absurd (isValidUTF8_iff.mpr ⟨s, decode_eq_ok_iff.mp hdecode⟩) hinvalid

/-! ### Bytes as they are shown -/

theorem lossy_of_none {b : Bytes} (hne : b ≠ []) (h : firstChar? b = none) :
    lossy b = '\uFFFD' :: lossy (b.drop (flawSize b)) := by
  rw [lossy, if_neg hne]
  split
  · rfl
  · next hc => rw [h] at hc; cases hc

theorem lossy_of_some {b : Bytes} {c : Char} (h : firstChar? b = some c) :
    lossy b = c :: lossy (b.drop c.utf8Size) := by
  have hne : b ≠ [] := by
    rintro rfl
    cases h
  rw [lossy, if_neg hne]
  split
  · next hn => rw [h] at hn; cases hn
  · next d hd =>
    rw [h] at hd
    obtain rfl := Option.some.inj hd
    rfl

/-- The form of a text is shown as the text, whatever bytes come after it. -/
theorem lossy_encode_append (t : Text) (b : Bytes) : lossy (encode t ++ b) = t ++ lossy b := by
  induction t with
  | nil => rfl
  | cons c t ih =>
    have hdrop : (String.utf8EncodeChar c ++ (encode t ++ b)).drop c.utf8Size = encode t ++ b := by
      rw [← String.length_utf8EncodeChar, List.drop_left]
    rw [encode_cons, List.append_assoc, lossy_of_some (firstChar?_eq_some_iff.mpr ⟨_, rfl⟩), hdrop, ih]
    rfl

theorem lossy_encode (t : Text) : lossy (encode t) = t := by
  have hnil : lossy [] = [] := by rw [lossy, if_pos rfl]
  have happend := lossy_encode_append t []
  rwa [hnil, List.append_nil, List.append_nil] at happend

/-- Each flaw shows as one character, and the text goes on after it. -/
theorem lossy_flaw {b : Bytes} (t : Text) (hne : b ≠ []) (h : firstChar? b = none) :
    lossy (encode t ++ b) = t ++ '\uFFFD' :: lossy (b.drop (flawSize b)) := by
  rw [lossy_encode_append, lossy_of_none hne h]

example : lossy [0x61, 0xE2, 0x82, 0x62, 0xFF] = ['a', '\uFFFD', 'b', '\uFFFD'] := by cbv

end StringResources.Text
