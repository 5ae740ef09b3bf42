/-
# Polytype.Proofs.Json.Report — an editor reads what was reported.

`Value.report es` is what an editor should be told about the entries `es`: an object with one element for each
entry, in their order.  The bytes that the writer produces are a text of this value (`denotes_report`), and since no
bytes are a text of two values they are a text of no other.  Nothing is assumed about the bytes of messages and missing
cases, so no content can end a string early or change what stands around it.

The library itself writes texts of characters.  Escaping is by single symbols that are ASCII characters, and the bytes
of other characters are never taken for these, so that it makes no difference whether a text is escaped first and then
encoded or the other way round (`bytes_jsonAll`).
-/
import Polytype.Proofs.Json.Unambiguity
import Polytype.Proofs.Name.Bytes

namespace Polytype.Json

/-! ## What is reported -/

/-- A member under a fixed name. -/
def field (name : String) (v : Value) : List UInt8 × Value := (name.toList.map Char.toUInt8, v)

/-- A fixed text as a string. -/
def Value.word (s : String) : Value := .string (s.toList.map Char.toUInt8)

/-- What an editor is told about a severity. -/
def Value.severity : Severity → Value
  | .error => .word "error"
  | .warning => .word "warning"

/-- What an editor is told about an entry. -/
def Value.entry (e : Entry UInt8) : Value :=
  .object <|
    [field "severity" (.severity e.severity), field "message" (.string e.message)] ++
    (if e.missing = [] then [] else [field "missingCases" (.array (e.missing.map .string))]) ++
    [field "source" (.word "parlang")]

/-- What an editor is told about entries. -/
def Value.report (es : List (Entry UInt8)) : Value :=
  .object [field "diagnostics" (.array (es.map .entry))]

/-! ## What is written -/

theorem decode_map_byte (s : List UInt8) : decode (s.map .byte) = s := by
  induction s with
  | nil => rfl
  | cons b s ih => rw [List.map_cons, decode, ih]

theorem chars_escape (s : List UInt8) : Chars (s.map .byte) (s.flatMap (escape Char.toUInt8)) := by
  induction s with
  | nil => exact .nil
  | cons b s ih =>
      rw [List.map_cons, List.flatMap_cons, escape]
      split
      case isTrue hmark => exact .short (by rw [hmark]; rfl) ih
      case isFalse hmark =>
        split
        case isTrue hslash => exact .short (by rw [hslash]; rfl) ih
        case isFalse hslash =>
          split
          case isTrue hline => exact .short (by rw [hline]; rfl) ih
          case isFalse => exact .raw hmark hslash ih

theorem quoted_quote (s : List UInt8) : Quoted s (quote Char.toUInt8 s) := by
  have h := Quoted.marks (chars_escape s)
  rw [decode_map_byte] at h
  exact h

theorem denotes_quote (s : List UInt8) : Denotes (.string s) (quote Char.toUInt8 s) := .string (quoted_quote s)

theorem member_field (name : String) {v : Value} {t : List UInt8} (ht : Denotes v t) :
    Member Denotes (field name v)
      (quote Char.toUInt8 (literal Char.toUInt8 name) ++ (literal Char.toUInt8 ": " ++ t)) :=
  .colon (quoted_quote _) blank_nil (by decide : Blank (literal Char.toUInt8 " ")) ht

/-- Items that are written one after the other, with commas and blanks between them, are a series. -/
theorem Series.intercalate {α β : Type} {R : α → List UInt8 → Prop} {f : β → α} {write : β → List UInt8}
    (hwrite : ∀ b, R (f b) (write b)) {w w' indent gap : List UInt8} (hw : Blank w) (hw' : Blank w')
    (hindent : Blank indent) (hgap : Blank gap) (b : β) (bs : List β) :
    Series R ((b :: bs).map f)
      (w ++ ((','.toUInt8 :: gap).intercalate ((b :: bs).map fun b => indent ++ write b) ++ w')) := by
  induction bs generalizing w b with
  | nil =>
      have hstart : Blank (w ++ indent) := List.forall_mem_append.mpr ⟨hw, hindent⟩
      have h := Series.single hstart (hwrite b) hw'
      simp only [List.append_assoc] at h
      simpa only [List.map_cons, List.map_nil, List.intercalate_singleton, List.append_assoc] using h
  | cons b' bs ih =>
      have hstart : Blank (w ++ indent) := List.forall_mem_append.mpr ⟨hw, hindent⟩
      have h := Series.comma hstart (hwrite b) blank_nil (ih hgap b')
      simp only [List.append_assoc, List.nil_append] at h
      simpa only [List.map_cons, List.intercalate_cons_cons, List.append_assoc, List.cons_append] using h

theorem denotes_missing (s : List UInt8) (ss : List (List UInt8)) :
    Denotes (.array ((s :: ss).map .string))
      (literal Char.toUInt8 "[" ++
        ((literal Char.toUInt8 ", ").intercalate ((s :: ss).map (quote Char.toUInt8)) ++ literal Char.toUInt8 "]")) := by
  have hgap : Blank (literal Char.toUInt8 " ") := by decide
  have h := Denotes.array (Series.intercalate denotes_quote blank_nil blank_nil blank_nil hgap s ss)
  rw [List.append_nil] at h
  exact h

/-- The word that is written for a severity is the one that an editor expects. -/
theorem denotes_severity (sev : Severity) :
    Denotes (.severity sev) (quote Char.toUInt8 (literal Char.toUInt8 sev.word)) := by
  cases sev <;> exact denotes_quote _

theorem denotes_object (e : Entry UInt8) : Denotes (.entry e) (object Char.toUInt8 e) := by
  have hstart : Blank (literal Char.toUInt8 "\n  ") := by decide
  have hend : Blank (literal Char.toUInt8 "\n") := by decide
  have hseverity := member_field "severity" (denotes_severity e.severity)
  have hmessage := member_field "message" (denotes_quote e.message)
  have hsource := Series.single hstart (member_field "source" (denotes_quote (literal Char.toUInt8 "parlang"))) hend
  rw [Value.entry, object]
  -- the text that the rules give and the one that is written group the same parts differently
  cases e.missing with
  | nil =>
      have h := Denotes.object (.comma hstart hseverity blank_nil
        (.comma hstart hmessage blank_nil hsource))
      simp only [List.append_assoc, List.cons_append] at h
      simp only [List.append_assoc, List.isEmpty_nil, ↓reduceIte]
      exact h
  | cons s ss =>
      have h := Denotes.object (.comma hstart hseverity blank_nil
        (.comma hstart hmessage blank_nil
          (.comma hstart (member_field "missingCases" (denotes_missing s ss)) blank_nil hsource)))
      simp only [List.append_assoc, List.cons_append] at h
      simp only [List.append_assoc, List.isEmpty_cons, Bool.false_eq_true, reduceCtorEq, ↓reduceIte]
      exact h

theorem denotes_report (es : List (Entry UInt8)) : Denotes (.report es) (report Char.toUInt8 es) := by
  have hstart : Blank (literal Char.toUInt8 "\n  ") := by decide
  have hend : Blank (literal Char.toUInt8 "\n") := by decide
  rw [Value.report, report]
  cases es with
  | nil =>
      have h := Denotes.object (.single hstart (member_field "diagnostics" (.array (.empty hstart))) hend)
      simp only [List.append_assoc, List.cons_append] at h
      exact h
  | cons e es =>
      have hindent : Blank (literal Char.toUInt8 "    ") := by decide
      have hentries := Series.intercalate denotes_object hend hstart hindent hend e es
      have h := Denotes.object (.single hstart (member_field "diagnostics" (.array hentries)) hend)
      simp only [List.append_assoc, List.cons_append] at h
      simp only [List.append_assoc, List.isEmpty_cons, Bool.false_eq_true, ↓reduceIte]
      exact h

theorem text_report_iff (es : List (Entry UInt8)) (v : Value) : Text v (report Char.toUInt8 es) ↔ v = .report es := by
  have hreport : Text (.report es) ([] ++ (report Char.toUInt8 es ++ [])) :=
    .blanks blank_nil (denotes_report es) blank_nil
  rw [List.nil_append, List.append_nil] at hreport
  refine ⟨fun h => h.unique hreport rfl, ?_⟩
  rintro rfl
  exact hreport

/-! ## Characters and their bytes -/

/-- The bytes of a text. -/
def encode (cs : List Char) : List UInt8 := cs.flatMap String.utf8EncodeChar

theorem encode_nil : encode [] = [] := rfl

theorem encode_append (cs ds : List Char) : encode (cs ++ ds) = encode cs ++ encode ds := List.flatMap_append

theorem encode_intercalate (sep : List Char) (css : List (List Char)) :
    encode (sep.intercalate css) = (encode sep).intercalate (css.map encode) := by
  induction css with
  | nil => rfl
  | cons cs css ih =>
      cases css with
      | nil => simp only [List.map_cons, List.map_nil, List.intercalate_singleton]
      | cons ds css =>
          rw [List.map_cons] at ih
          rw [List.intercalate_cons_cons, encode_append, encode_append, ih, List.map_cons, List.map_cons,
            List.intercalate_cons_cons]

/-- A text of ASCII characters, as all fixed texts are. -/
def Ascii (s : String) : Prop := ∀ c ∈ s.toList, c.val.toNat ≤ 127

instance (s : String) : Decidable (Ascii s) := List.decidableBAll _ s.toList

theorem encode_literal {s : String} (hs : Ascii s) : encode (literal id s) = literal Char.toUInt8 s := by
  rw [literal, literal, List.map_id, encode, List.flatMap_congr fun c hc => Name.utf8EncodeChar_of_ascii (hs c hc)]
  exact List.map_eq_flatMap.symm

theorem escape_of_ne {σ : Type} [DecidableEq σ] {ascii : Char → σ} {c : σ} (hmark : c ≠ ascii '"')
    (hslash : c ≠ ascii '\\') (hline : c ≠ ascii '\n') : escape ascii c = [c] := by
  rw [escape, if_neg hmark, if_neg hslash, if_neg hline]

theorem encode_escape (c : Char) :
    encode (escape id c) = (String.utf8EncodeChar c).flatMap (escape Char.toUInt8) := by
  by_cases hmark : c = '"'
  · rw [hmark]; rfl
  by_cases hslash : c = '\\'
  · rw [hslash]; rfl
  by_cases hline : c = '\n'
  · rw [hline]; rfl
  have hbytes : ∀ b ∈ String.utf8EncodeChar c, escape Char.toUInt8 b = [b] := by
    intro b hb
    refine escape_of_ne ?_ ?_ ?_
    · rintro rfl
      exact hmark (Name.eq_of_mem_utf8EncodeChar (by decide) hb)
    · rintro rfl
      exact hslash (Name.eq_of_mem_utf8EncodeChar (by decide) hb)
    · rintro rfl
      exact hline (Name.eq_of_mem_utf8EncodeChar (by decide) hb)
  rw [escape_of_ne hmark hslash hline, List.flatMap_congr hbytes, List.flatMap_singleton', encode,
    List.flatMap_singleton]

theorem encode_quote (cs : List Char) : encode (quote id cs) = quote Char.toUInt8 (encode cs) := by
  have hmark : encode (literal id "\"") = literal Char.toUInt8 "\"" := encode_literal (by decide)
  have hescape : encode (cs.flatMap (escape id)) = (encode cs).flatMap (escape Char.toUInt8) := by
    rw [encode, encode, List.flatMap_assoc, List.flatMap_assoc]
    exact List.flatMap_congr fun c _ => encode_escape c
  rw [quote, quote, encode_append, encode_append, hmark, hescape]

/-- An entry in bytes. -/
def Entry.encode (e : Entry Char) : Entry UInt8 where
  severity := e.severity
  message := Json.encode e.message
  missing := e.missing.map Json.encode

theorem encode_object (e : Entry Char) : encode (object id e) = object Char.toUInt8 e.encode := by
  have hword : encode (literal id e.severity.word) = literal Char.toUInt8 e.severity.word := by
    cases e.severity <;> exact encode_literal (by decide)
  have hcases : (e.missing.map (quote id)).map encode = (e.missing.map encode).map (quote Char.toUInt8) := by
    rw [List.map_map, List.map_map]
    exact List.map_congr_left fun cs _ => encode_quote cs
  rw [object, object, Entry.encode, List.isEmpty_map, ← hcases]
  cases e.missing.isEmpty <;>
    simp (disch := decide) only [↓reduceIte, Bool.false_eq_true, encode_nil, encode_append, encode_literal, encode_quote,
      encode_intercalate, hword]

theorem encode_report (es : List (Entry Char)) :
    encode (report id es) = report Char.toUInt8 (es.map Entry.encode) := by
  have hobjects : (es.map fun e => literal id "    " ++ object id e).map encode =
      (es.map Entry.encode).map fun e => literal Char.toUInt8 "    " ++ object Char.toUInt8 e := by
    rw [List.map_map, List.map_map]
    refine List.map_congr_left fun e _ => ?_
    rw [Function.comp_apply, Function.comp_apply, encode_append, encode_literal (by decide), encode_object]
  rw [report, report, List.isEmpty_map, ← hobjects]
  cases es.isEmpty <;>
    simp (disch := decide) only [↓reduceIte, Bool.false_eq_true, encode_nil, encode_append, encode_literal,
      encode_intercalate]

/-- What an editor is told about a diagnostic, in bytes. -/
def Entry.ofDiagnostic (d : Diagnostic) : Entry UInt8 where
  severity := d.severity
  message := Name.bytes d.title
  missing := d.missing.map Name.bytes

theorem encode_entry (d : Diagnostic) : d.entry.encode = .ofDiagnostic d := by
  have hbytes : ∀ s : String, encode s.toList = Name.bytes s := fun s => (Name.bytes_eq s).symm
  rw [Entry.encode, Entry.ofDiagnostic, Diagnostic.entry, hbytes, List.map_map]
  exact congrArg _ (List.map_congr_left fun s _ => hbytes s)

theorem bytes_jsonAll (ds : List Diagnostic) :
    Name.bytes (Diagnostic.jsonAll ds) = report Char.toUInt8 (ds.map .ofDiagnostic) := by
  calc Name.bytes (Diagnostic.jsonAll ds)
    _ = encode (report id (ds.map Diagnostic.entry)) := by
        rw [Name.bytes_eq, Diagnostic.jsonAll, String.toList_ofList, encode]
    _ = report Char.toUInt8 ((ds.map Diagnostic.entry).map Entry.encode) := encode_report _
    _ = report Char.toUInt8 (ds.map .ofDiagnostic) := by
        rw [List.map_map]
        exact congrArg _ (List.map_congr_left fun d _ => encode_entry d)

/-- Whatever the messages and missing cases are, the report is a text of what was to be told and of nothing else; and
the report of the diagnostics that were collected is such a report. -/
theorem report_lossless (es : List (Entry UInt8)) (ds : List Diagnostic) (v : Value) :
    (Text v (report Char.toUInt8 es) ↔ v = .report es) ∧
      (Text v (Name.bytes (Diagnostic.jsonAll ds)) ↔ v = .report (ds.map .ofDiagnostic)) := by
  refine ⟨text_report_iff es v, ?_⟩
  rw [bytes_jsonAll]
  exact text_report_iff _ v

/-- An error, and a warning with missing cases and with marks in its title. -/
def mixedDiagnostics : List Diagnostic :=
  [{ category := .typeError, title := "cannot unify" },
    { category := .patternMatchError, title := "say \"when\"", severity := .warning, missing := ["None", "Some _"] }]

theorem report_lossless_mixed :
    Text (.object [field "diagnostics" (.array
        [.object [field "severity" (.word "error"), field "message" (.word "cannot unify"),
          field "source" (.word "parlang")],
        .object [field "severity" (.word "warning"), field "message" (.word "say \"when\""),
          field "missingCases" (.array [.word "None", .word "Some _"]), field "source" (.word "parlang")]])])
      (Name.bytes (Diagnostic.jsonAll mixedDiagnostics)) :=
  (report_lossless [] mixedDiagnostics _).2.mpr rfl

end Polytype.Json
