import StringResources.Proofs.Resource.Stops
import StringResources.Proofs.Sync.Merged
import StringResources.Proofs.Text.Located

/-! Files that are not UTF-8. A merge reads both files before it parses either, the base first, and it reports the
    first whose bytes are no form of a text. The error is located just past the longest beginning of the bytes that is
    one. Main statement: `mergeFile_notUtf8`. -/

namespace StringResources
open Parse

/-- The error of the file at a path whose bytes are not UTF-8. Its location is behind the longest beginning of the bytes
    that is the form of a text: `lead` holds the lines that end there and `line` the characters after them. -/
structure ParseError.PastValid (e : ParseError) (path : Text) (bytes : Bytes) : Prop where
  cause_eq : e.cause = .notUtf8
  path_eq : e.path = path
  message_eq : e.message = path ++ ':' :: (Text.ofNat e.location.line ++ ':' ::
    (Text.ofNat e.location.column ++ ": file is not valid UTF-8".toList))
  located : ∃ lead line : Text, Text.LongestStart (lead ++ line) bytes ∧ (lead = [] ∨ lead.getLast? = some '\n') ∧
    '\n' ∉ line ∧ e.location = { line := (lead ++ line).count '\n' + 1, column := line.length + 1 }

theorem ParseError.invalidUtf8_pastValid {valid : Text} {bytes : Bytes} (h : Text.LongestStart valid bytes)
    (path : Text) : (ParseError.invalidUtf8 path valid).PastValid path bytes where
  cause_eq := rfl
  path_eq := rfl
  message_eq := by
    simp only [ParseError.message, List.append_assoc, List.singleton_append]
    rfl
  located := by
    have hlocation := Text.location_size valid []
    rw [List.append_nil] at hlocation
    rcases Text.eq_or_exists_lastLine valid with ⟨hfree, hlast⟩ | ⟨lead, hlead, hfree⟩
    · refine ⟨[], valid, h, Or.inl rfl, hfree, ?_⟩
      rw [hlast] at hlocation
      exact hlocation
    · have hvalid : valid = (lead ++ ['\n']) ++ valid.lastLine := by
        rw [List.append_assoc]
        exact hlead
      refine ⟨lead ++ ['\n'], valid.lastLine, hvalid ▸ h, Or.inr (by simp), hfree, ?_⟩
      rw [← hvalid]
      exact hlocation

namespace Disk
variable {d : Disk} {path base locale : Text} {bytes : Bytes} {options : MergeOptions}

/-! ### Reading -/

theorem readText_of_valid (hread : d.read path = .ok bytes) (hvalid : bytes.toByteArray.IsValidUTF8) :
    ∃ t, d.readText path = .ok t := by
  obtain ⟨t, ht⟩ := Text.isValidUTF8_iff.mp hvalid
  refine ⟨t, ?_⟩
  rw [readText, hread]
  dsimp only
  rw [Text.decode_eq_ok_iff.mpr ht]

theorem readText_of_not_valid (hread : d.read path = .ok bytes) (hinvalid : ¬ bytes.toByteArray.IsValidUTF8) :
    ∃ e, e.PastValid path bytes ∧ d.readText path = .error (.parse e) := by
  rcases hdecode : Text.decode bytes with valid | t
  · refine ⟨_, ParseError.invalidUtf8_pastValid (Text.longestStart_of_decode hdecode) path, ?_⟩
    rw [readText, hread]
    dsimp only
    rw [hdecode]
  · exact absurd (Text.isValidUTF8_iff.mpr ⟨t, Text.decode_eq_ok_iff.mp hdecode⟩) hinvalid

theorem exists_bytes_of_readText {t : Text} (h : d.readText path = .ok t) :
    ∃ bytes, d.read path = .ok bytes ∧ bytes.toByteArray.IsValidUTF8 := by
  obtain ⟨target, mode, bytes, hfind, hdecode⟩ := readText_eq_ok_iff.mp h
  exact ⟨bytes, by rw [read, hfind], Text.isValidUTF8_iff.mpr ⟨t, Text.decode_eq_ok_iff.mp hdecode⟩⟩

/-- A parse error of the reading of a file is that of bytes that are not UTF-8. -/
theorem exists_bytes_of_readText_error {e : ParseError} (h : d.readText path = .error (.parse e)) :
    ∃ bytes, d.read path = .ok bytes ∧ ¬ bytes.toByteArray.IsValidUTF8 ∧ e.PastValid path bytes := by
  unfold readText at h
  split at h
  · cases h
  · cases h
  · next bytes hread =>
    split at h
    · cases h
    · next valid hvalid =>
      obtain ⟨hinvalid, hstart⟩ := Text.decode_eq_error_iff.mp hvalid
      obtain rfl := SyncError.parse.inj (Except.error.inj h)
      exact ⟨bytes, hread, hinvalid, ParseError.invalidUtf8_pastValid hstart path⟩

theorem documents_eq_error_iff {e : SyncError} :
    d.documents base locale = .error e ↔ d.readText base = .error e ∨ ∃ baseText, d.readText base = .ok baseText ∧
      (d.readText locale = .error e ∨ ∃ localeText, d.readText locale = .ok localeText ∧
        ((∃ failure, parse base baseText = .error failure ∧ .ofParseFailure failure = e) ∨
          ∃ b, parse base baseText = .ok b ∧
            ∃ failure, parse locale localeText = .error failure ∧ .ofParseFailure failure = e)) := by
  simp only [documents, bind_eq_error_iff, mapError_eq_error_iff, mapError_eq_ok_iff, reduceCtorEq, and_false,
    exists_false, or_false]

/-- A merge that reports a parse error could not read its files as documents. -/
theorem documents_of_mergeFile {e : ParseError} (h : (d.mergeFile base locale options).1 = .error (.parse e)) :
    d.documents base locale = .error (.parse e) := by
  rcases hdocuments : d.documents base locale with e' | ⟨b, l⟩
  · rw [mergeFile_of_error hdocuments] at h
    rw [Except.error.inj h]
  · unfold mergeFile at h
    rw [hdocuments] at h
    dsimp only at h
    split at h
    · split at h
      · cases h
      · split at h <;> cases h
    · cases h

/-! ### The first file in fault -/

/-- A merge reports the first of its files, base and locale, whose bytes are not UTF-8, and leaves the disk as it was.
    It reports no such error where the bytes of both are UTF-8. -/
theorem mergeFile_notUtf8 (d : Disk) (base locale : Text) (options : MergeOptions) :
    (∀ bytes, d.read base = .ok bytes → ¬ bytes.toByteArray.IsValidUTF8 →
      ∃ e : ParseError, e.PastValid base bytes ∧ d.mergeFile base locale options = (.error (.parse e), d)) ∧
    (∀ baseBytes bytes, d.read base = .ok baseBytes → baseBytes.toByteArray.IsValidUTF8 → d.read locale = .ok bytes →
      ¬ bytes.toByteArray.IsValidUTF8 →
      ∃ e : ParseError, e.PastValid locale bytes ∧ d.mergeFile base locale options = (.error (.parse e), d)) ∧
    ∀ e : ParseError, (d.mergeFile base locale options).1 = .error (.parse e) → e.cause = .notUtf8 →
      ∃ baseBytes, d.read base = .ok baseBytes ∧
        (¬ baseBytes.toByteArray.IsValidUTF8 ∧ e.PastValid base baseBytes ∨
          baseBytes.toByteArray.IsValidUTF8 ∧ ∃ bytes, d.read locale = .ok bytes ∧
            ¬ bytes.toByteArray.IsValidUTF8 ∧ e.PastValid locale bytes) := by
  refine ⟨fun bytes hread hinvalid => ?_, fun baseBytes bytes hbase hvalid hread hinvalid => ?_, fun e he hcause => ?_⟩
  · obtain ⟨e, hpast, herror⟩ := readText_of_not_valid hread hinvalid
    exact ⟨e, hpast, mergeFile_of_error (documents_eq_error_iff.mpr (Or.inl herror)) options⟩
  · obtain ⟨baseText, hbaseText⟩ := readText_of_valid hbase hvalid
    obtain ⟨e, hpast, herror⟩ := readText_of_not_valid hread hinvalid
    have hdocuments := documents_eq_error_iff.mpr (Or.inr ⟨baseText, hbaseText, Or.inl herror⟩)
    exact ⟨e, hpast, mergeFile_of_error hdocuments options⟩
  · have hparse : ∀ {path t : Text} {failure : ParseFailure}, parse path t = .error failure →
        SyncError.ofParseFailure failure ≠ .parse e := by
      rintro path t (e' | _) hfailure heq
      · obtain rfl := SyncError.parse.inj heq
        exact parse_cause_ne_notUtf8 hfailure hcause
      · cases heq
    rcases documents_eq_error_iff.mp (documents_of_mergeFile he) with
      herror | ⟨baseText, hbaseText, herror | ⟨localeText, -, ⟨_, hfailure, heq⟩ | ⟨b, -, _, hfailure, heq⟩⟩⟩
    · obtain ⟨bytes, hread, hinvalid, hpast⟩ := exists_bytes_of_readText_error herror
      exact ⟨bytes, hread, Or.inl ⟨hinvalid, hpast⟩⟩
    · obtain ⟨baseBytes, hbase, hvalid⟩ := exists_bytes_of_readText hbaseText
      obtain ⟨bytes, hread, hinvalid, hpast⟩ := exists_bytes_of_readText_error herror
      exact ⟨baseBytes, hbase, Or.inr ⟨hvalid, bytes, hread, hinvalid, hpast⟩⟩
    · exact absurd heq (hparse hfailure)
    · exact absurd heq (hparse hfailure)

/-- A disk with a base file `b` and a locale file `l`. -/
def holding (base locale : Bytes) : Disk where
  tree := { nodes := [([['b']], .file Node.fileMode base), ([['l']], .file Node.fileMode locale)] }
  home := []
  failNext := false

/-- Two lines that end within a character of three bytes. -/
def truncated : Bytes := [0x3c, 0x0a, 0xc3, 0xa9, 0xe2, 0x82]

/-- The base is empty, which is no document, but the locale file is in fault before: on its second line, after the one
    character that stands there. -/
theorem mergeFile_notUtf8_truncated :
    (holding [] truncated).read ['b'] = .ok [] ∧ (holding [] truncated).read ['l'] = .ok truncated ∧
      ¬ truncated.toByteArray.IsValidUTF8 ∧
      ∃ e : ParseError, e.PastValid ['l'] truncated ∧ e.location = { line := 2, column := 2 } ∧
        (holding [] truncated).mergeFile ['b'] ['l'] {} = (.error (.parse e), holding [] truncated) := by
  have hbase : (holding [] truncated).read ['b'] = .ok [] := by cbv
  have hlocale : (holding [] truncated).read ['l'] = .ok truncated := by cbv
  have hdecode : Text.decode truncated = .error "<\n\u00e9".toList := by cbv
  have hinvalid := (Text.decode_eq_error_iff.mp hdecode).1
  have hvalid : (List.toByteArray []).IsValidUTF8 := Text.isValidUTF8_iff.mpr ⟨[], rfl⟩
  obtain ⟨e, hpast, hmerge⟩ :=
    (mergeFile_notUtf8 (holding [] truncated) ['b'] ['l'] {}).2.1 [] truncated hbase hvalid hlocale hinvalid
  have hread : (holding [] truncated).readText ['l'] = .error (.parse (.invalidUtf8 ['l'] "<\n\u00e9".toList)) := by
    rw [readText, hlocale]
    dsimp only
    rw [hdecode]
  have hdocuments := documents_of_mergeFile (congrArg Prod.fst hmerge)
  obtain ⟨baseText, hbaseText⟩ := readText_of_valid hbase hvalid
  rw [documents_eq_error_iff.mpr (Or.inr ⟨baseText, hbaseText, Or.inl hread⟩)] at hdocuments
  obtain rfl := SyncError.parse.inj (Except.error.inj hdocuments)
  exact ⟨hbase, hlocale, hinvalid, _, hpast, by decide, hmerge⟩

end Disk
end StringResources
