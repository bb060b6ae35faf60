import RowFormat.Proofs.Bytes
import RowFormat.Proofs.DictText
import RowFormat.Decoder.Row

namespace RowFormat

/-- Some NUL bytes. -/
def padding (n : Nat) : ByteArray := ⟨Array.replicate n 0⟩

namespace Dict

/-- Padding is taken off bytes that do not end with a NUL themselves. -/
theorem stripPadding_append {bytes : ByteArray} {front : List UInt8} {last : UInt8}
    (h : bytes.data.toList = front ++ [last]) (hlast : last ≠ 0) (n : Nat) :
    stripPadding (bytes ++ padding n) = bytes := by
  have hbytes : (bytes ++ padding n).data.toList.reverse =
      List.replicate n 0 ++ bytes.data.toList.reverse := by
    simp [padding]
  have hdrop : (List.replicate n 0 ++ bytes.data.toList.reverse).dropWhile (· == 0) =
      bytes.data.toList.reverse := by
    rw [List.dropWhile_append_of_pos (by simp), h]
    simp [hlast]
  apply ByteArray.ext
  rw [stripPadding, hbytes, hdrop, List.reverse_reverse]

theorem brace_of_spaced {close : List Char} (h : Json.Spaced .objectEnd close) :
    ∃ front, close = front ++ ['\x7d'] := by
  obtain ⟨blank, lexeme, _, hlexeme, rfl⟩ := h
  cases hlexeme
  exact ⟨blank, rfl⟩

theorem brace_of_writesEntries {entries : List (Value × Value)} {cs : List Char}
    (h : WritesEntries entries cs) : ∃ front, cs = front ++ ['\x7d'] := by
  induction h with
  | close hclose => exact brace_of_spaced hclose
  | @next comma text _ _ _ _ _ _ ih =>
    obtain ⟨front, rfl⟩ := ih
    exact ⟨comma ++ (text ++ front), by simp⟩

/-- A written dict ends with its closing brace and blanks. -/
theorem brace_of_writes {entries : List (Value × Value)} {cs : List Char} (h : Writes entries cs) :
    ∃ body blank, cs = (body ++ ['\x7d']) ++ blank ∧ Json.Blank blank := by
  cases h with
  | @empty start _ blank _ hclose hblank =>
    obtain ⟨front, rfl⟩ := brace_of_spaced hclose
    exact ⟨start ++ front, blank, by simp, hblank⟩
  | @entries start text _ blank _ _ _ _ hrest hblank =>
    obtain ⟨front, rfl⟩ := brace_of_writesEntries hrest
    exact ⟨start ++ (text ++ front), blank, by simp, hblank⟩

/-- Padding behind a text that ends with a brace and blanks is taken off. -/
theorem stripPadding_of_brace {text : String} {body blank : List Char}
    (h : text.toList = (body ++ ['\x7d']) ++ blank) (hblank : Json.Blank blank) (n : Nat) :
    stripPadding (text.toUTF8 ++ padding n) = text.toUTF8 := by
  obtain ⟨front, last, htext, hlast⟩ : ∃ front last, text.toList = front ++ [last] ∧
      last ∈ ['\x7d', ' ', '\t', '\n', '\r'] := by
    rcases List.eq_nil_or_concat blank with rfl | ⟨front, last, rfl⟩
    · exact ⟨body, '\x7d', h.trans (List.append_nil _), List.mem_cons_self⟩
    · have hlast := hblank last (by simp)
      refine ⟨body ++ ['\x7d'] ++ front, last, by simp [h], ?_⟩
      exact List.mem_cons_of_mem _ (by simpa using hlast)
  obtain ⟨hencode, hne⟩ :
      String.utf8EncodeChar last = [last.toNat.toUInt8] ∧ last.toNat.toUInt8 ≠ 0 := by
    simp only [List.mem_cons, List.not_mem_nil, or_false] at hlast
    obtain rfl | rfl | rfl | rfl | rfl := hlast <;> decide
  have hbytes : text.toUTF8.data.toList =
      front.flatMap String.utf8EncodeChar ++ [last.toNat.toUInt8] := by
    rw [String.toUTF8, ← String.utf8Encode_toList, List.utf8Encode,
      List.toList_data_toByteArray, htext, List.flatMap_append, List.flatMap_singleton, hencode]
  exact stripPadding_append hbytes hne n

/-- The bytes of a written dict are parsed as its members. -/
theorem jsonDict_of_renders {members : List (String × Json)} {entries : List (Value × Value)}
    {text : String} {limit : Nat} (hreads : List.Forall₂ Reads members entries)
    (h : Json.Renders (.object members) text) (hlimit : 1 ≤ limit) :
    Decoder.jsonDict limit text.toUTF8 = some (.object members) := by
  have htext : String.fromUTF8? text.toUTF8 = some text := by
    simp [String.fromUTF8?, String.fromUTF8, text.isValidUTF8]
  simp only [Decoder.jsonDict, htext, parseWithin_of_renders hreads h hlimit, Except.toOption]

end Dict

/-- The bytes that a descriptor at a place leads to. -/
def Descriptor.LeadsTo (descriptor : Descriptor) (span : Span) (bytes : ByteArray) : Prop :=
  descriptor.length.toNat = bytes.size ∧ ∃ pre suf, span.data = pre ++ bytes ++ suf ∧
    pre.size = span.position + descriptor.offset.toNat

theorem Descriptor.LeadsTo.target {descriptor : Descriptor} {span : Span} {bytes : ByteArray}
    (h : descriptor.LeadsTo span bytes) :
    ∃ pre suf, descriptor.target span = .ok ⟨pre ++ bytes ++ suf, pre.size⟩ := by
  obtain ⟨hlength, pre, suf, hdata, hpre⟩ := h
  refine ⟨pre, suf, Span.advance_eq_ok_iff.mpr ⟨?_, by rw [hdata, hpre]⟩⟩
  rw [hdata, ByteArray.size_append, ByteArray.size_append]
  omega

theorem Descriptor.LeadsTo.payload {descriptor : Descriptor} {span : Span} {bytes : ByteArray}
    (h : descriptor.LeadsTo span bytes) : descriptor.payload span = .ok bytes := by
  obtain ⟨pre, suf, htarget⟩ := h.target
  simp only [Descriptor.payload, htarget, h.1, bind, Except.bind, Span.bytes_append]

namespace Decoder

/-- The text of an object is read through a descriptor that leads to it, as the entries that its members
are read as. -/
theorem reader_of_reads (d : Decoder) (hparse : d.parseDict = jsonDict defaultMaxDepth)
    {members : List (String × Json)} {entries : List (Value × Value)} {text : String}
    (hreads : List.Forall₂ Dict.Reads members entries)
    (hrenders : Json.Renders (.object members) text)
    (hkeys : entries.Pairwise fun e f => (e.1 == f.1) = false) {n : Nat}
    (hpadding : Dict.stripPadding (text.toUTF8 ++ padding n) = text.toUTF8) {span : Span}
    {descriptor : Descriptor} (hdescriptor : span.descriptor = .ok descriptor)
    (hleads : descriptor.LeadsTo span (text.toUTF8 ++ padding n)) (bit : Option NullBit)
    (depth : Nat) : d.reader .dict span bit depth = ⟨.ok (.dict entries), []⟩ := by
  have hdict : d.parseDict (Dict.stripPadding (text.toUTF8 ++ padding n)) =
      some (.object members) := by
    rw [hpadding, hparse]
    exact Dict.jsonDict_of_renders hreads hrenders (by decide)
  simp only [reader, readDict, hdescriptor, hleads.payload, Decoding.access_ok, Decoding.bind_eq,
    Decoding.ok_bind, hdict, Json.entries?, Dict.readEntries_of_reads hreads hkeys]

/-- A written dict with different keys is read back through a descriptor that leads to it. -/
theorem reader_of_descriptor (d : Decoder) (hparse : d.parseDict = jsonDict defaultMaxDepth)
    {entries : List (Value × Value)} {text : String} (h : Dict.Writes entries text.toList)
    (hkeys : entries.Pairwise fun e f => (e.1 == f.1) = false) {span : Span}
    {descriptor : Descriptor} (hdescriptor : span.descriptor = .ok descriptor) {n : Nat}
    (hleads : descriptor.LeadsTo span (text.toUTF8 ++ padding n)) (bit : Option NullBit)
    (depth : Nat) : d.reader .dict span bit depth = ⟨.ok (.dict entries), []⟩ := by
  obtain ⟨members, hreads, hrenders⟩ := Dict.renders_of_writes h
  obtain ⟨body, blank, htext, hblank⟩ := Dict.brace_of_writes h
  exact reader_of_reads d hparse hreads hrenders hkeys (Dict.stripPadding_of_brace htext hblank n)
    hdescriptor hleads bit depth

/-- A dict of texts, truth values and integers with different keys can be written. However it is
written, with any padding behind it and wherever a descriptor leads to it, it is read as the same
entries in the same order, and nothing is reported. -/
theorem reader_of_writes (d : Decoder) (hparse : d.parseDict = jsonDict defaultMaxDepth)
    (entries : List (Value × Value))
    (hkinds : ∀ e ∈ entries, Dict.isWritableKey e.1 ∧ Dict.isWritableValue e.2)
    (hkeys : entries.Pairwise fun e f => (e.1 == f.1) = false) :
    (∃ text : String, Dict.Writes entries text.toList) ∧
      ∀ (text : String) (n : Nat) (span : Span) (descriptor : Descriptor),
        Dict.Writes entries text.toList → span.descriptor = .ok descriptor →
        descriptor.LeadsTo span (text.toUTF8 ++ padding n) →
        ∀ bit depth, d.reader .dict span bit depth = ⟨.ok (.dict entries), []⟩ := by
  refine ⟨Dict.exists_writes hkinds, ?_⟩
  intro text n span descriptor hwrites hdescriptor hleads bit depth
  exact reader_of_descriptor d hparse hwrites hkeys hdescriptor hleads bit depth

/-- A dict of two entries, with a quote in its first key and an escape in its first value. -/
def quoteAndNumber : String := "\x7b\"ssa\\\"\":\"\\u00E9\" ,\"ib-5\": true\x7d\n"

/-- The dict behind a descriptor, with three bytes of padding and one more byte behind these. -/
def quoteAndNumberRow : ByteArray :=
  wordBytes (Descriptor.toWord ⟨8, 36⟩) ++ (quoteAndNumber.toUTF8 ++ padding 3) ++ ⟨#[7]⟩

theorem writes_quoteAndNumber :
    Dict.Writes [(.str "a\"", .str "é"), (.int (-5), .bool true)] quoteAndNumber.toList := by
  have hnone : Json.Blank [] := List.forall_mem_nil _
  have hspace : Json.Blank [' '] := by simp [Json.Blank]
  have hline : Json.Blank ['\n'] := by simp [Json.Blank]
  have hplain (c : Char) (hescape : c ≠ '\\') (hquote : c ≠ '"') {cs text : List Char}
      (h : Dict.Quotes cs text) : Dict.Quotes (c :: cs) (c :: text) :=
    .cons (.plain hescape) (by simpa using hquote) h
  have hquote : Dict.Quotes ['"'] ['\\', '"'] := .cons .quote (by decide) .nil
  have hfirst : Dict.WritesString ['s', 's', 'a', '"'] ("\"ssa\\\"\"".toList) :=
    ⟨[], _, hnone, hplain 's' (by decide) (by decide) (hplain 's' (by decide) (by decide)
      (hplain 'a' (by decide) (by decide) hquote)), by decide⟩
  have hdigits : Escape.Hex (((0 * 16 + 0) * 16 + 14) * 16 + 9) ['0', '0', 'E', '9'] :=
    .digits ⟨by decide, .inl (by decide)⟩ ⟨by decide, .inl (by decide)⟩
      ⟨by decide, .inr (by decide)⟩ ⟨by decide, .inl (by decide)⟩
  have hletter : Dict.WritesString "é".toList ("\"\\u00E9\"".toList) :=
    ⟨[], _, hnone, .cons (.unit hdigits) (by decide) .nil, by decide⟩
  have hsecond : Dict.WritesString ['i', 'b', '-', '5'] ("\"ib-5\"".toList) :=
    ⟨[], _, hnone, hplain 'i' (by decide) (by decide) (hplain 'b' (by decide) (by decide)
      (hplain '-' (by decide) (by decide) (hplain '5' (by decide) (by decide) .nil))), by decide⟩
  have hstart := Dict.spaced_of_lexeme .objectStart
  have hcolon := Dict.spaced_of_lexeme .colon
  have hcomma : Json.Spaced .comma [' ', ','] := ⟨[' '], _, hspace, .comma, rfl⟩
  have htrue : Json.Spaced (.bool true) (" true".toList) := ⟨[' '], _, hspace, .true, by decide⟩
  have hclose := Dict.spaced_of_lexeme .objectEnd
  have hwrites := Dict.Writes.entries hstart (.entry (.str "a\"") hfirst hcolon (.str hletter))
    (.next hcomma (.entry (.int (-5)) hsecond hcolon (.bool htrue)) (.close hclose)) hline
  exact hwrites

theorem reader_of_writes_quoteAndNumber :
    standard.readRow quoteAndNumberRow .dict =
      ⟨.ok (.dict [(.str "a\"", .str "é"), (.int (-5), .bool true)]), []⟩ := by
  have hkinds : ∀ e ∈ [(Value.str "a\"", Value.str "é"), (.int (-5), .bool true)],
      Dict.isWritableKey e.1 ∧ Dict.isWritableValue e.2 := by
    decide
  have hkeys : [(Value.str "a\"", Value.str "é"), (.int (-5), .bool true)].Pairwise
      fun e f => (e.1 == f.1) = false := by
    simp [Value.beq_eq_same, Value.same]
  have hdescriptor : (Span.ofBytes quoteAndNumberRow).descriptor = .ok ⟨8, 36⟩ := by rfl
  have hleads : Descriptor.LeadsTo ⟨8, 36⟩ (Span.ofBytes quoteAndNumberRow)
      (quoteAndNumber.toUTF8 ++ padding 3) :=
    ⟨by rfl, wordBytes (Descriptor.toWord ⟨8, 36⟩), ⟨#[7]⟩, rfl, by rfl⟩
  exact (reader_of_writes standard rfl _ hkinds hkeys).2 _ 3 _ _ writes_quoteAndNumber hdescriptor
    hleads none 0

end Decoder

end RowFormat
