import RowFormat.Proofs.DictRoundTrip
import RowFormat.Proofs.WholeDoubles

namespace RowFormat

namespace Dict

open Json (Blank Renders Spaced)

/-- The texts of a dict with one entry, whose key and whose value are tagged as integers and written as
the same one. -/
inductive WritesTwice : Int64 → List Char → Prop
  | entry {n : Int64} {start name colon blank close behind : List Char} : Spaced .objectStart start →
      WritesString ('i' :: 'i' :: Numeral.decimal n) name → Spaced .colon colon → Blank blank →
      Spaced .objectEnd close → Blank behind →
      WritesTwice n
        ((start ++ ((name ++ (colon ++ (blank ++ Numeral.decimal n))) ++ close)) ++ behind)

/-- What the value is read as. -/
def throughDouble (n : Int64) : Int64 :=
  (Binary64.ofDecimal (n.toInt < 0) n.toInt.natAbs 0).truncate

def textOfTwice (n : Int64) : List Char :=
  '\x7b' :: '"' :: 'i' :: 'i' :: Numeral.decimal n ++ '"' :: ':' :: Numeral.decimal n ++ ['\x7d']

theorem decimal_cases (n : Int64) : ∃ first cs, Numeral.decimal n = first :: cs ∧
    (first = '-' ∨ first.isDigit) ∧ ∀ c ∈ cs, c.isDigit := by
  have hdigits {m : Nat} (c : Char) (hc : c ∈ Nat.toDigits 10 m) : c.isDigit :=
    Numeral.toDigits_isDigit hc
  rw [Numeral.decimal_eq]
  split
  next =>
    obtain ⟨first, cs, hcs⟩ := List.exists_cons_of_ne_nil
      (Nat.toDigits_ne_nil (n := n.toInt.toNat) (b := 10))
    have hall := hdigits (m := n.toInt.toNat)
    rw [hcs] at hall ⊢
    exact ⟨first, cs, rfl, .inr (hall first List.mem_cons_self),
      fun c hc => hall c (List.mem_cons_of_mem _ hc)⟩
  next => exact ⟨'-', _, rfl, .inl rfl, hdigits⟩

theorem lexeme_decimal (n : Int64) :
    Json.Lexeme (.number (Binary64.ofDecimal (n.toInt < 0) n.toInt.natAbs 0)) (Numeral.decimal n) := by
  obtain ⟨first, cs, hcs, hfirst, hrest⟩ := decimal_cases n
  have hread := Binary64.read_decimal n
  rw [hcs] at hread ⊢
  exact .number hfirst (fun c hc => .inl (hrest c hc)) hread

theorem quotes_of_plain {cs : List Char} (h : ∀ c ∈ cs, c ≠ '\\' ∧ c ≠ '"') : Quotes cs cs := by
  induction cs with
  | nil => exact .nil
  | cons c cs ih =>
    obtain ⟨⟨hescape, hquote⟩, hrest⟩ := List.forall_mem_cons.mp h
    exact .cons (.plain hescape) (by simpa using hquote) (ih hrest)

theorem writesTwice_textOfTwice (n : Int64) : WritesTwice n (textOfTwice n) := by
  have hdecimal (c : Char) (hc : c ∈ Numeral.decimal n) : c ≠ '\\' ∧ c ≠ '"' := by
    obtain ⟨first, cs, hcs, hfirst, hrest⟩ := decimal_cases n
    have hdigit {c : Char} (h : c.isDigit) : c ≠ '\\' ∧ c ≠ '"' := by
      constructor <;> rintro rfl <;> cases h
    rw [hcs] at hc
    rcases List.mem_cons.mp hc with rfl | hc
    · rcases hfirst with rfl | hfirst
      · decide
      · exact hdigit hfirst
    · exact hdigit (hrest c hc)
  have hname : ∀ c ∈ 'i' :: 'i' :: Numeral.decimal n, c ≠ '\\' ∧ c ≠ '"' :=
    List.forall_mem_cons.mpr ⟨by decide, List.forall_mem_cons.mpr ⟨by decide, hdecimal⟩⟩
  have htwice := WritesTwice.entry (spaced_of_lexeme .objectStart)
    ⟨[], _, List.forall_mem_nil _, quotes_of_plain hname, rfl⟩ (spaced_of_lexeme .colon)
    (List.forall_mem_nil _) (spaced_of_lexeme .objectEnd) (List.forall_mem_nil _)
  simpa [textOfTwice] using htwice

/-- Such a text is that of an object with one member, and the member is read as an entry. -/
theorem renders_of_writesTwice {n : Int64} {text : String} (h : WritesTwice n text.toList) :
    ∃ member, Reads member (.int n, .int (throughDouble n)) ∧ Renders (.object [member]) text := by
  generalize hcs : text.toList = cs at h
  obtain ⟨hstart, hname, hcolon, hblank, hclose, hbehind⟩ := h
  refine ⟨(String.ofList ('i' :: 'i' :: Numeral.decimal n),
    .number (Binary64.ofDecimal (n.toInt < 0) n.toInt.natAbs 0)), ⟨rfl, rfl, rfl, ?_⟩, ?_⟩
  · intro position
    have hsplit : splitKey ('i' :: 'i' :: Numeral.decimal n) =
        some ('i'.toUInt8, 'i'.toUInt8, Numeral.decimal n) := rfl
    have hs : 'i'.toUInt8 ≠ 's'.toUInt8 := by decide
    have hb : 'i'.toUInt8 ≠ 'b'.toUInt8 := by decide
    simp [readEntry, hsplit, readKey_of_writesKey (.int n), readValue, nodeValue?, if_neg hs, if_neg hb,
      Json.number?, recover, throughDouble]
  · have hvalue := Json.Spells.number ⟨_, _, hblank, lexeme_decimal n, rfl⟩
    have hentry := Json.SpellsEntry.entry (spaced_of_writesString hname) hcolon hvalue
    exact ⟨_, _, .object hstart hentry (.close hclose), hbehind, hcs⟩

theorem brace_of_writesTwice {n : Int64} {cs : List Char} (h : WritesTwice n cs) :
    ∃ body blank, cs = (body ++ ['\x7d']) ++ blank ∧ Blank blank := by
  obtain ⟨-, -, -, -, hclose, hbehind⟩ := h
  obtain ⟨front, rfl⟩ := brace_of_spaced hclose
  exact ⟨_, _, by rw [← List.append_assoc, ← List.append_assoc], hbehind⟩

theorem toInt_throughDouble (n : Int64) :
    (throughDouble n).toInt = min ((signedLimit : Int) - 1) (Binary64.nearestInt n.toInt) :=
  Binary64.truncate_ofDecimal (Int64.le_toInt n) (Int64.toInt_lt n)

/-- The largest integer is no double, but the nearest one is cut off at it. -/
theorem throughDouble_eq_iff (n : Int64) : throughDouble n = n ↔
    Binary64.IsWhole n.toInt ∨ n.toInt = signedLimit - 1 := by
  have hhigh := Int64.toInt_lt n
  rw [← Int64.toInt_inj, toInt_throughDouble, ← Binary64.nearestInt_eq_iff]
  constructor
  · intro h
    simp only [signedLimit] at h ⊢
    omega
  · rintro (h | h)
    · rw [h]
      simp only [signedLimit]
      omega
    · have hlargest : Binary64.nearestInt (signedLimit - 1) = signedLimit := by decide
      rw [h, hlargest]
      decide

end Dict

namespace Decoder

/-- Both halves of the entry are read, the key as it was written and the value through a double. -/
theorem reader_of_text (d : Decoder) (hparse : d.parseDict = jsonDict defaultMaxDepth) {n : Int64}
    {text : String} (h : Dict.WritesTwice n text.toList) {span : Span} {descriptor : Descriptor}
    (hdescriptor : span.descriptor = .ok descriptor) {k : Nat}
    (hleads : descriptor.LeadsTo span (text.toUTF8 ++ padding k)) (bit : Option NullBit)
    (depth : Nat) :
    d.reader .dict span bit depth = ⟨.ok (.dict [(.int n, .int (Dict.throughDouble n))]), []⟩ := by
  obtain ⟨member, hreads, hrenders⟩ := Dict.renders_of_writesTwice h
  obtain ⟨body, blank, htext, hblank⟩ := Dict.brace_of_writesTwice h
  exact reader_of_reads d hparse (.cons hreads .nil) hrenders (List.pairwise_singleton _ _)
    (Dict.stripPadding_of_brace htext hblank k) hdescriptor hleads bit depth

/-- Every integer can be written as the key and as the value of a dict's only entry. However that is
written, with any padding behind it and wherever a descriptor leads to it, both halves are read and
nothing is reported: the key as the integer itself, and the value as the double nearest to it, cut off
at the largest integer. So the value is the integer itself iff that is a double, or the largest one. -/
theorem reader_of_writesTwice (d : Decoder) (hparse : d.parseDict = jsonDict defaultMaxDepth)
    (n : Int64) :
    (∃ text : String, Dict.WritesTwice n text.toList) ∧
      ∃ value : Int64,
        (∃ w, Binary64.IsNearest n.toInt w ∧ value.toInt = min ((signedLimit : Int) - 1) w) ∧
        (value = n ↔ Binary64.IsWhole n.toInt ∨ n.toInt = signedLimit - 1) ∧
        ∀ (text : String) (k : Nat) (span : Span) (descriptor : Descriptor),
          Dict.WritesTwice n text.toList → span.descriptor = .ok descriptor →
          descriptor.LeadsTo span (text.toUTF8 ++ padding k) →
          ∀ bit depth, d.reader .dict span bit depth =
            ⟨.ok (.dict [(.int n, .int value)]), []⟩ := by
  refine ⟨⟨String.ofList (Dict.textOfTwice n), ?_⟩, Dict.throughDouble n,
    ⟨_, Binary64.isNearest_nearestInt n.toInt, Dict.toInt_throughDouble n⟩,
    Dict.throughDouble_eq_iff n, ?_⟩
  · rw [String.toList_ofList]
    exact Dict.writesTwice_textOfTwice n
  · intro text k span descriptor hwrites hdescriptor hleads bit depth
    exact reader_of_text d hparse hwrites hdescriptor hleads bit depth

/-- A dict of the smallest integer, which is a power of two. -/
def smallestText : String := "\x7b\"ii-9223372036854775808\":-9223372036854775808\x7d"

def smallestRow : ByteArray := wordBytes (Descriptor.toWord ⟨8, 47⟩) ++ smallestText.toUTF8

theorem reader_of_writesTwice_smallest :
    standard.readRow smallestRow .dict =
      ⟨.ok (.dict [(.int (-9223372036854775808), .int (-9223372036854775808))]), []⟩ := by
  have hwrites : Dict.WritesTwice (-9223372036854775808) smallestText.toList := by
    have htext : smallestText.toList = Dict.textOfTwice (-9223372036854775808) := by decide +kernel
    rw [htext]
    exact Dict.writesTwice_textOfTwice _
  obtain ⟨-, value, -, hsame, hread⟩ := reader_of_writesTwice standard rfl (-9223372036854775808)
  obtain rfl := hsame.mpr (.inl ⟨-1, 63, by decide, by decide⟩)
  have hdescriptor : (Span.ofBytes smallestRow).descriptor = .ok ⟨8, 47⟩ := by rfl
  have hleads : Descriptor.LeadsTo ⟨8, 47⟩ (Span.ofBytes smallestRow)
      (smallestText.toUTF8 ++ padding 0) :=
    ⟨by rfl, wordBytes (Descriptor.toWord ⟨8, 47⟩), ⟨#[]⟩, by rfl, by rfl⟩
  exact hread smallestText 0 _ ⟨8, 47⟩ hwrites hdescriptor hleads none 0

/-- A dict of the smallest natural number that is no double. -/
def oddText : String := "\x7b\"ii9007199254740993\":9007199254740993\x7d"

def oddRow : ByteArray := wordBytes (Descriptor.toWord ⟨8, 39⟩) ++ oddText.toUTF8

theorem not_reader_of_writesTwice_odd :
    standard.readRow oddRow .dict =
        ⟨.ok (.dict [(.int 9007199254740993, .int 9007199254740992)]), []⟩ ∧
      ¬∀ (n : Int64) (text : String) (k : Nat) (span : Span) (descriptor : Descriptor),
        Dict.WritesTwice n text.toList → span.descriptor = .ok descriptor →
        descriptor.LeadsTo span (text.toUTF8 ++ padding k) →
        standard.read .dict span none = ⟨.ok (.dict [(.int n, .int n)]), []⟩ := by
  have hwrites : Dict.WritesTwice 9007199254740993 oddText.toList := by
    have htext : oddText.toList = Dict.textOfTwice 9007199254740993 := by decide +kernel
    rw [htext]
    exact Dict.writesTwice_textOfTwice _
  have hdescriptor : (Span.ofBytes oddRow).descriptor = .ok ⟨8, 39⟩ := by rfl
  have hleads : Descriptor.LeadsTo ⟨8, 39⟩ (Span.ofBytes oddRow) (oddText.toUTF8 ++ padding 0) :=
    ⟨by rfl, wordBytes (Descriptor.toWord ⟨8, 39⟩), ⟨#[]⟩, by rfl, by rfl⟩
  have hvalue : Dict.throughDouble 9007199254740993 = 9007199254740992 := by decide +kernel
  have hread := reader_of_text standard rfl hwrites hdescriptor hleads none 0
  rw [hvalue] at hread
  refine ⟨hread, fun h => ?_⟩
  have hsame := (h _ _ _ _ _ hwrites hdescriptor hleads).symm.trans hread
  simp at hsame

end Decoder

end RowFormat
