import RowFormat.Proofs.Decimals
import RowFormat.Proofs.DictTable
import RowFormat.Proofs.Escapes
import RowFormat.Proofs.JsonAcceptance

namespace RowFormat

namespace Dict

open Json (Blank Raw Spaced)

/-- The ways to write a text between quotes: no quote in it stands for itself. -/
inductive Quotes : List Char → List Char → Prop
  | nil : Quotes [] []
  | cons {c : Char} {cs piece text : List Char} : Escape.Writes c piece → piece ≠ ['"'] →
      Quotes cs text → Quotes (c :: cs) (piece ++ text)

/-- The ways to write a text as a string, with the space before it. -/
def WritesString (cs text : List Char) : Prop :=
  ∃ blank body, Blank blank ∧ Quotes cs body ∧ text = blank ++ ('"' :: body ++ ['"'])

/-- The tag and the literal of a key. -/
inductive WritesKey : Value → Char → List Char → Prop
  | str (text : String) : WritesKey (.str text) 's' text.toList
  | true : WritesKey (.bool Bool.true) 'b' "True".toList
  | false : WritesKey (.bool Bool.false) 'b' "False".toList
  | int (n : Int64) : WritesKey (.int n) 'i' (Numeral.decimal n)

/-- The tag and the texts of a value. -/
inductive WritesValue : Value → Char → List Char → Prop
  | str {value : String} {text : List Char} :
      WritesString value.toList text → WritesValue (.str value) 's' text
  | bool {value : Bool} {text : List Char} :
      Spaced (.bool value) text → WritesValue (.bool value) 'b' text

/-- The texts of an entry. -/
inductive WritesEntry : Value × Value → List Char → Prop
  | entry {key value : Value} {keyTag valueTag : Char} {literal name colon text : List Char} :
      WritesKey key keyTag literal → WritesString (keyTag :: valueTag :: literal) name →
      Spaced .colon colon → WritesValue value valueTag text →
      WritesEntry (key, value) (name ++ (colon ++ text))

/-- What follows the first entry. -/
inductive WritesEntries : List (Value × Value) → List Char → Prop
  | close {close : List Char} : Spaced .objectEnd close → WritesEntries [] close
  | next {comma text rest : List Char} {entry : Value × Value} {entries : List (Value × Value)} :
      Spaced .comma comma → WritesEntry entry text → WritesEntries entries rest →
      WritesEntries (entry :: entries) (comma ++ (text ++ rest))

/-- The texts of a dict. -/
inductive Writes : List (Value × Value) → List Char → Prop
  | empty {start close blank : List Char} : Spaced .objectStart start → Spaced .objectEnd close →
      Blank blank → Writes [] ((start ++ close) ++ blank)
  | entries {start text rest blank : List Char} {entry : Value × Value}
      {entries : List (Value × Value)} : Spaced .objectStart start → WritesEntry entry text →
      WritesEntries entries rest → Blank blank →
      Writes (entry :: entries) ((start ++ (text ++ rest)) ++ blank)

/-- Keys that have a tag and a literal. -/
def isWritableKey : Value → Bool
  | .str _ | .bool _ | .int _ => true
  | _ => false

/-- Values that have a tag and a text. -/
def isWritableValue : Value → Bool
  | .str _ | .bool _ => true
  | _ => false

theorem exists_quotes (cs : List Char) : ∃ text, Quotes cs text := by
  induction cs with
  | nil => exact ⟨[], .nil⟩
  | cons c cs ih =>
    obtain ⟨text, htext⟩ := ih
    by_cases hescape : c = '\\'
    · subst hescape
      exact ⟨_, .cons .backslash (by decide) htext⟩
    · by_cases hquote : c = '"'
      · subst hquote
        exact ⟨_, .cons .quote (by decide) htext⟩
      · exact ⟨_, .cons (.plain hescape) (by simpa using hquote) htext⟩

theorem exists_writesString (cs : List Char) : ∃ text, WritesString cs text := by
  obtain ⟨body, hbody⟩ := exists_quotes cs
  exact ⟨_, [], body, List.forall_mem_nil _, hbody, rfl⟩

theorem exists_writesKey {key : Value} (h : isWritableKey key) :
    ∃ tag literal, WritesKey key tag literal := by
  cases key with
  | str text => exact ⟨_, _, .str text⟩
  | int n => exact ⟨_, _, .int n⟩
  | bool b =>
    cases b with
    | true => exact ⟨_, _, .true⟩
    | false => exact ⟨_, _, .false⟩
  | _ => cases h

/-- A token without space before it. -/
theorem spaced_of_lexeme {t : JsonToken} {lexeme : List Char} (h : Json.Lexeme t lexeme) :
    Spaced t lexeme :=
  ⟨[], lexeme, List.forall_mem_nil _, h, rfl⟩

theorem exists_writesValue {value : Value} (h : isWritableValue value) :
    ∃ tag text, WritesValue value tag text := by
  cases value with
  | str text =>
    obtain ⟨body, hbody⟩ := exists_writesString text.toList
    exact ⟨_, _, .str hbody⟩
  | bool b =>
    cases b with
    | true => exact ⟨_, _, .bool (spaced_of_lexeme .true)⟩
    | false => exact ⟨_, _, .bool (spaced_of_lexeme .false)⟩
  | _ => cases h

theorem exists_writesEntry {e : Value × Value} (hkey : isWritableKey e.1)
    (hvalue : isWritableValue e.2) : ∃ text, WritesEntry e text := by
  obtain ⟨keyTag, literal, hkey⟩ := exists_writesKey hkey
  obtain ⟨valueTag, text, hvalue⟩ := exists_writesValue hvalue
  obtain ⟨name, hname⟩ := exists_writesString (keyTag :: valueTag :: literal)
  exact ⟨_, .entry hkey hname (spaced_of_lexeme .colon) hvalue⟩

theorem exists_writesEntries {entries : List (Value × Value)}
    (h : ∀ e ∈ entries, isWritableKey e.1 ∧ isWritableValue e.2) :
    ∃ text, WritesEntries entries text := by
  induction entries with
  | nil => exact ⟨_, .close (spaced_of_lexeme .objectEnd)⟩
  | cons e entries ih =>
    obtain ⟨⟨hkey, hvalue⟩, hentries⟩ := List.forall_mem_cons.mp h
    obtain ⟨text, htext⟩ := exists_writesEntry hkey hvalue
    obtain ⟨rest, hrest⟩ := ih hentries
    exact ⟨_, .next (spaced_of_lexeme .comma) htext hrest⟩

/-- Every dict of texts, truth values and integers can be written. -/
theorem exists_writes {entries : List (Value × Value)}
    (h : ∀ e ∈ entries, isWritableKey e.1 ∧ isWritableValue e.2) :
    ∃ text : String, Writes entries text.toList := by
  have hstart := spaced_of_lexeme .objectStart
  obtain ⟨cs, hwrites⟩ : ∃ cs, Writes entries cs := by
    cases entries with
    | nil => exact ⟨_, .empty hstart (spaced_of_lexeme .objectEnd) (List.forall_mem_nil _)⟩
    | cons e entries =>
      obtain ⟨⟨hkey, hvalue⟩, hentries⟩ := List.forall_mem_cons.mp h
      obtain ⟨text, htext⟩ := exists_writesEntry hkey hvalue
      obtain ⟨rest, hrest⟩ := exists_writesEntries hentries
      exact ⟨_, .entries hstart htext hrest (List.forall_mem_nil _)⟩
  exact ⟨String.ofList cs, by rw [String.toList_ofList]; exact hwrites⟩

theorem Quotes.writesAll {cs text : List Char} (h : Quotes cs text) : Escape.WritesAll cs text := by
  induction h with
  | nil => exact .nil
  | cons hc _ _ ih => exact .cons hc ih

theorem raw_of_hex {unit : Nat} {digits rest : List Char} (h : Escape.Hex unit digits)
    (hrest : Raw rest) : Raw (digits ++ rest) := by
  obtain ⟨h₁, h₂, h₃, h₄⟩ := h
  exact .plain h₁.digit.2.2.2.1 h₁.digit.2.2.2.2 (.plain h₂.digit.2.2.2.1 h₂.digit.2.2.2.2
    (.plain h₃.digit.2.2.2.1 h₃.digit.2.2.2.2 (.plain h₄.digit.2.2.2.1 h₄.digit.2.2.2.2 hrest)))

theorem raw_of_writes {c : Char} {piece rest : List Char} (h : Escape.Writes c piece)
    (hquote : piece ≠ ['"']) (hrest : Raw rest) : Raw (piece ++ rest) := by
  cases h with
  | plain hne => exact .plain (fun hc => hquote (by rw [hc])) hne hrest
  | unit hdigits => exact .escaped (raw_of_hex hdigits hrest)
  | pair _ _ _ hfirst hsecond =>
    rw [List.cons_append, List.cons_append, List.append_assoc]
    exact .escaped (raw_of_hex hfirst (.escaped (raw_of_hex hsecond hrest)))
  | _ => exact .escaped hrest

theorem Quotes.raw {cs text : List Char} (h : Quotes cs text) : Raw text := by
  induction h with
  | nil => exact .nil
  | cons hc hquote _ ih => exact raw_of_writes hc hquote ih

theorem spaced_of_writesString {cs text : List Char} (h : WritesString cs text) :
    Spaced (.string (String.ofList cs)) text := by
  obtain ⟨blank, body, hblank, hbody, rfl⟩ := h
  exact ⟨blank, _, hblank,
    JsonCursor.lexeme_of_stringText hbody.raw (Escape.stringText_of_writesAll hbody.writesAll), rfl⟩

/-- A member that is read as an entry, wherever it stands. -/
structure Reads (member : String × Json) (entry : Value × Value) : Prop where
  key : entry.1.isScalar = true
  value : entry.2.isScalar = true
  depth : member.2.depth = 0
  entry (position : Nat) : readEntry position member.1 member.2 = (entry, [])

theorem readKey_of_writesKey {key : Value} {tag : Char} {literal : List Char}
    (h : WritesKey key tag literal) (raw : String) :
    readKey tag.toUInt8 literal raw = .ok key := by
  cases h with
  | str text => simp [readKey]
  | true => rfl
  | false => rfl
  | int n =>
    have hs : 'i'.toUInt8 ≠ 's'.toUInt8 := by decide
    have hb : 'i'.toUInt8 ≠ 'b'.toUInt8 := by decide
    simp only [readKey, if_neg hs, if_neg hb, if_true, Numeral.readInt64_trimBlank_decimal]

theorem splitKey_of_writes {key value : Value} {keyTag valueTag : Char} {literal text : List Char}
    (h : WritesKey key keyTag literal) (h' : WritesValue value valueTag text) :
    splitKey (keyTag :: valueTag :: literal) =
      some (keyTag.toUInt8, valueTag.toUInt8, literal) := by
  cases h <;> cases h' <;> rfl

theorem spellsEntry_of_writesEntry {e : Value × Value} {text : List Char}
    (h : WritesEntry e text) : ∃ member, Reads member e ∧ Json.SpellsEntry member text := by
  obtain @⟨key, value, keyTag, valueTag, literal, name, colon, text, hkey, hname, hcolon, hvalue⟩ := h
  have hsplit := splitKey_of_writes hkey hvalue
  have hscalar : key.isScalar = true := by cases hkey <;> rfl
  have hentry {node : Json} (hnode : nodeValue? valueTag.toUInt8 node = some (some value))
      (position : Nat) :
      readEntry position (String.ofList (keyTag :: valueTag :: literal)) node =
        ((key, value), []) := by
    simp [readEntry, hsplit, readKey_of_writesKey hkey, readValue, hnode, recover]
  cases hvalue with
  | @str value text htext =>
    refine ⟨(_, .string value), ⟨hscalar, rfl, rfl, hentry rfl⟩, ?_⟩
    have hspaced := spaced_of_writesString htext
    rw [String.ofList_toList] at hspaced
    exact .entry (spaced_of_writesString hname) hcolon (.string hspaced)
  | @bool value text htext =>
    refine ⟨(_, .bool value), ⟨hscalar, rfl, rfl, hentry rfl⟩, ?_⟩
    exact .entry (spaced_of_writesString hname) hcolon (.bool htext)

theorem spellsEntries_of_writesEntries {entries : List (Value × Value)} {text : List Char}
    (h : WritesEntries entries text) :
    ∃ members, List.Forall₂ Reads members entries ∧ Json.SpellsEntries members text := by
  induction h with
  | close hclose => exact ⟨[], .nil, .close hclose⟩
  | next hcomma hentry _ ih =>
    obtain ⟨member, hreads, hspells⟩ := spellsEntry_of_writesEntry hentry
    obtain ⟨members, hrest, hspellsRest⟩ := ih
    exact ⟨member :: members, .cons hreads hrest, .next hcomma hspells hspellsRest⟩

/-- A written dict is the text of an object, whose members are read as the entries. -/
theorem renders_of_writes {entries : List (Value × Value)} {text : String}
    (h : Writes entries text.toList) :
    ∃ members, List.Forall₂ Reads members entries ∧ Json.Renders (.object members) text := by
  generalize hcs : text.toList = cs at h
  cases h with
  | empty hstart hclose hblank =>
    exact ⟨[], .nil, _, _, .emptyObject hstart hclose, hblank, hcs⟩
  | entries hstart hentry hrest hblank =>
    obtain ⟨member, hreads, hspells⟩ := spellsEntry_of_writesEntry hentry
    obtain ⟨members, hreadsRest, hspellsRest⟩ := spellsEntries_of_writesEntries hrest
    exact ⟨member :: members, .cons hreads hreadsRest, _, _, .object hstart hspells hspellsRest,
      hblank, hcs⟩

theorem entriesDepth_of_reads {members : List (String × Json)} {entries : List (Value × Value)}
    (h : List.Forall₂ Reads members entries) : Json.entriesDepth members = 0 := by
  induction h with
  | nil => rfl
  | @cons member entry members entries hmember _ ih =>
    rw [Json.entriesDepth, hmember.depth, ih]
    rfl

/-- The text of a written dict is parsed whatever more than one container may be nested. -/
theorem parseWithin_of_renders {members : List (String × Json)} {entries : List (Value × Value)}
    {text : String} {limit : Nat} (hreads : List.Forall₂ Reads members entries)
    (h : Json.Renders (.object members) text) (hlimit : 1 ≤ limit) :
    Json.parseWithin limit text = .ok (.object members) := by
  refine Json.parseWithin_complete h ?_
  rw [Json.depth, entriesDepth_of_reads hreads]
  exact hlimit

theorem map_readEntry_of_reads {members : List (String × Json)} {entries : List (Value × Value)}
    (h : List.Forall₂ Reads members entries) (position : Nat) :
    members.map (fun (raw, node) => readEntry position raw node) = entries.map (·, []) := by
  induction h with
  | nil => rfl
  | cons hmember _ ih =>
    rw [List.map_cons, List.map_cons, ih]
    exact congrArg (· :: _) (hmember.entry position)

theorem isHalf_of_reads {members : List (String × Json)} {entries : List (Value × Value)}
    (h : List.Forall₂ Reads members entries) :
    ∀ e ∈ entries, e.1.IsHalf False ∧ e.2.IsHalf False := by
  induction h with
  | nil => exact List.forall_mem_nil _
  | cons hmember _ ih =>
    exact List.forall_mem_cons.mpr ⟨⟨.inl hmember.key, .inl hmember.value⟩, ih⟩

/-- Members that are read as entries with different keys are read as these entries. -/
theorem readEntries_of_reads {members : List (String × Json)} {entries : List (Value × Value)}
    (h : List.Forall₂ Reads members entries)
    (hkeys : entries.Pairwise fun e f => (e.1 == f.1) = false) (position : Nat) :
    readEntries position members = (entries, []) := by
  have htable := Table.toList_foldl_put Table.Sound.empty (isHalf_of_reads h)
  have hkept : Value.insertAll [] entries = [] ++ entries := Value.insertAll_of_apart hkeys
  have hnotes : (entries.map fun e => (e, ([] : Diagnostics))).flatMap Prod.snd = [] := by
    simp
  simp only [readEntries, map_readEntry_of_reads h position, List.foldl_map, hnotes]
  exact congrArg (·, []) (htable.trans hkept)

end Dict

end RowFormat
