import RowFormat.Proofs.JsonParsing

namespace RowFormat

namespace Json

-- The recursion is that of the parser, on what is left of the text. The token that a value begins
-- with is read before, so its text comes from outside.

mutual

theorem spells_of_parseValue {limit level : Nat} {c place : JsonCursor} {t : JsonToken} {v : Json}
    {text : List Char}
    (h : Yields (parseValue limit level t c) v place) (ht : Spaced t text) (hlevel : level ≤ limit) :
    ∃ more, c.rest = more ++ place.rest ∧ Spells v (text ++ more) ∧ level + v.depth ≤ limit := by
  cases t with
  | null | bool value | number value | string value =>
    rw [parseValue] at h
    obtain ⟨rfl, rfl⟩ := yields_ok_iff.mp h
    refine ⟨[], rfl, ?_, hlevel⟩
    rw [List.append_nil]
    constructor
    exact ht
  | arrayStart =>
    obtain ⟨hopen, items, hitems, rfl⟩ := parseValue_arrayStart_yields_iff.mp h
    obtain ⟨hnext, rfl⟩ | ⟨first, after, hnext, _, item, mid, rest, hitem, hrest, rfl⟩ := hitems
    · obtain ⟨close, hclose, hc⟩ := JsonCursor.spaced_of_next hnext
      exact ⟨close, hc, .emptyArray ht hclose, hopen⟩
    · have hshort := JsonCursor.next_length hnext
      have hle := hitem.le
      obtain ⟨start, hstart, hc⟩ := JsonCursor.spaced_of_next hnext
      obtain ⟨body, hafter, hspells, hdepth⟩ := spells_of_parseValue hitem hstart hopen
      obtain ⟨tail, hmid, hspells', hdepth'⟩ := spells_of_parseItems hrest hopen
      refine ⟨start ++ body ++ tail, ?_, .array ht hspells hspells', ?_⟩
      · rw [hc, hafter, hmid]
        simp only [List.append_assoc]
      · simp only [depth, itemsDepth]
        omega
  | objectStart =>
    obtain ⟨hopen, entries, hentries, rfl⟩ := parseValue_objectStart_yields_iff.mp h
    obtain ⟨hnext, rfl⟩ | ⟨first, after, hnext, _, entry, mid, rest, hentry, hrest, rfl⟩ := hentries
    · obtain ⟨close, hclose, hc⟩ := JsonCursor.spaced_of_next hnext
      exact ⟨close, hc, .emptyObject ht hclose, hopen⟩
    · have hshort := JsonCursor.next_length hnext
      have hle := hentry.le
      obtain ⟨start, hstart, hc⟩ := JsonCursor.spaced_of_next hnext
      obtain ⟨body, hafter, hspells, hdepth⟩ := spells_of_parseEntry hentry hstart hopen
      obtain ⟨tail, hmid, hspells', hdepth'⟩ := spells_of_parseEntries hrest hopen
      refine ⟨start ++ body ++ tail, ?_, .object ht hspells hspells', ?_⟩
      · rw [hc, hafter, hmid]
        simp only [List.append_assoc]
      · simp only [depth, entriesDepth]
        omega
  | objectEnd | arrayEnd | colon | comma =>
    rw [parseValue.eq_def] at h
    exact absurd h yields_error
termination_by c.rest.length

theorem spells_of_parseItems {limit level : Nat} {c place : JsonCursor} {items : List Json}
    (h : Yields (parseItems limit level c) items place) (hlevel : level ≤ limit) :
    ∃ text, c.rest = text ++ place.rest ∧ SpellsItems items text ∧
      level + itemsDepth items ≤ limit := by
  obtain ⟨hnext, rfl⟩ | ⟨comma, first, after, hcomma, hfirst, item, mid, rest, hitem, hrest, rfl⟩ :=
    parseItems_yields_iff.mp h
  · obtain ⟨close, hclose, hc⟩ := JsonCursor.spaced_of_next hnext
    exact ⟨close, hc, .close hclose, hlevel⟩
  · have hshort := JsonCursor.next_length hcomma
    have hshort' := JsonCursor.next_length hfirst
    have hle := hitem.le
    obtain ⟨separator, hseparator, hc⟩ := JsonCursor.spaced_of_next hcomma
    obtain ⟨start, hstart, hc'⟩ := JsonCursor.spaced_of_next hfirst
    obtain ⟨body, hafter, hspells, hdepth⟩ := spells_of_parseValue hitem hstart hlevel
    obtain ⟨tail, hmid, hspells', hdepth'⟩ := spells_of_parseItems hrest hlevel
    refine ⟨separator ++ (start ++ body ++ tail), ?_, .next hseparator hspells hspells', ?_⟩
    · rw [hc, hc', hafter, hmid]
      simp only [List.append_assoc]
    · simp only [itemsDepth]
      omega
termination_by c.rest.length

theorem spells_of_parseEntry {limit level : Nat} {c place : JsonCursor} {t : JsonToken}
    {entry : String × Json} {name : List Char}
    (h : Yields (parseEntry limit level t c) entry place) (ht : Spaced t name)
    (hlevel : level ≤ limit) :
    ∃ more, c.rest = more ++ place.rest ∧ SpellsEntry entry (name ++ more) ∧
      level + entry.2.depth ≤ limit := by
  obtain ⟨key, colon, first, after, value, rfl, hcolon, hfirst, hvalue, rfl⟩ :=
    parseEntry_yields_iff.mp h
  have hshort := JsonCursor.next_length hcolon
  have hshort' := JsonCursor.next_length hfirst
  obtain ⟨separator, hseparator, hc⟩ := JsonCursor.spaced_of_next hcolon
  obtain ⟨start, hstart, hc'⟩ := JsonCursor.spaced_of_next hfirst
  obtain ⟨body, hafter, hspells, hdepth⟩ := spells_of_parseValue hvalue hstart hlevel
  refine ⟨separator ++ (start ++ body), ?_, .entry ht hseparator hspells, hdepth⟩
  rw [hc, hc', hafter]
  simp only [List.append_assoc]
termination_by c.rest.length

theorem spells_of_parseEntries {limit level : Nat} {c place : JsonCursor}
    {entries : List (String × Json)}
    (h : Yields (parseEntries limit level c) entries place) (hlevel : level ≤ limit) :
    ∃ text, c.rest = text ++ place.rest ∧ SpellsEntries entries text ∧
      level + entriesDepth entries ≤ limit := by
  obtain ⟨hnext, rfl⟩ |
      ⟨comma, first, after, hcomma, hfirst, entry, mid, rest, hentry, hrest, rfl⟩ :=
    parseEntries_yields_iff.mp h
  · obtain ⟨close, hclose, hc⟩ := JsonCursor.spaced_of_next hnext
    exact ⟨close, hc, .close hclose, hlevel⟩
  · have hshort := JsonCursor.next_length hcomma
    have hshort' := JsonCursor.next_length hfirst
    have hle := hentry.le
    obtain ⟨separator, hseparator, hc⟩ := JsonCursor.spaced_of_next hcomma
    obtain ⟨start, hstart, hc'⟩ := JsonCursor.spaced_of_next hfirst
    obtain ⟨body, hafter, hspells, hdepth⟩ := spells_of_parseEntry hentry hstart hlevel
    obtain ⟨tail, hmid, hspells', hdepth'⟩ := spells_of_parseEntries hrest hlevel
    refine ⟨separator ++ (start ++ body ++ tail), ?_, .next hseparator hspells hspells', ?_⟩
    · rw [hc, hc', hafter, hmid]
      simp only [List.append_assoc]
    · simp only [entriesDepth]
      omega
termination_by c.rest.length

end

theorem takeWhile_isNumberChar_of_blank {blank : List Char} (h : Blank blank) (hne : blank ≠ [])
    (rest : List Char) : (blank ++ rest).takeWhile JsonCursor.isNumberChar = [] := by
  obtain ⟨c, cs, rfl⟩ := List.exists_cons_of_ne_nil hne
  obtain rfl | rfl | rfl | rfl := h c List.mem_cons_self <;> rfl

/-- No number goes on with a comma or a closing bracket, nor with the space before it. -/
theorem takeWhile_isNumberChar_of_spaced {t : JsonToken} {text : List Char} (h : Spaced t text)
    (ht : t = .comma ∨ t = .arrayEnd ∨ t = .objectEnd) (rest : List Char) :
    (text ++ rest).takeWhile JsonCursor.isNumberChar = [] := by
  obtain ⟨blank, lexeme, hblank, hlexeme, rfl⟩ := h
  by_cases hempty : blank = []
  · subst hempty
    obtain rfl | rfl | rfl := ht <;> cases hlexeme <;> rfl
  · rw [List.append_assoc]
    exact takeWhile_isNumberChar_of_blank hblank hempty _

theorem SpellsItems.takeWhile_isNumberChar {items : List Json} {text : List Char}
    (h : SpellsItems items text) (rest : List Char) :
    (text ++ rest).takeWhile JsonCursor.isNumberChar = [] := by
  cases h with
  | close hclose => exact takeWhile_isNumberChar_of_spaced hclose (by simp) rest
  | next hcomma =>
    rw [List.append_assoc]
    exact takeWhile_isNumberChar_of_spaced hcomma (by simp) _

theorem SpellsEntries.takeWhile_isNumberChar {entries : List (String × Json)} {text : List Char}
    (h : SpellsEntries entries text) (rest : List Char) :
    (text ++ rest).takeWhile JsonCursor.isNumberChar = [] := by
  cases h with
  | close hclose => exact takeWhile_isNumberChar_of_spaced hclose (by simp) rest
  | next hcomma =>
    rw [List.append_assoc]
    exact takeWhile_isNumberChar_of_spaced hcomma (by simp) _

theorem ne_arrayEnd_of_yields {limit level : Nat} {t : JsonToken} {c place : JsonCursor} {v : Json}
    (h : Yields (parseValue limit level t c) v place) : t ≠ .arrayEnd := by
  rintro rfl
  rw [parseValue.eq_def] at h
  exact absurd h yields_error

theorem ne_objectEnd_of_yields {limit level : Nat} {t : JsonToken} {c place : JsonCursor}
    {entry : String × Json} (h : Yields (parseEntry limit level t c) entry place) :
    t ≠ .objectEnd := by
  obtain ⟨key, _, _, _, _, rfl, _⟩ := parseEntry_yields_iff.mp h
  exact JsonToken.noConfusion

-- Here the recursion is on the value. Only if it is a number it matters that what follows cannot go
-- on with it, but that has to be known before it is.

mutual

theorem parseValue_of_spells (limit level position : Nat) {v : Json} {text rest : List Char}
    (h : Spells v text) (hlevel : level + v.depth ≤ limit)
    (hend : rest.takeWhile JsonCursor.isNumberChar = []) :
    ∃ first after p, JsonCursor.next ⟨position, text ++ rest⟩ = .ok (some (first, after)) ∧
      Yields (parseValue limit level first after) v ⟨p, rest⟩ := by
  cases h with
  | null ht | bool ht | number ht | string ht =>
    obtain ⟨p, hnext⟩ := JsonCursor.next_of_spaced position ht rest (JsonCursor.ends_of_takeWhile hend)
    refine ⟨_, _, p, hnext, ?_⟩
    rw [parseValue]
    exact yields_ok_iff.mpr ⟨rfl, rfl⟩
  | emptyArray hstart hclose =>
    rw [List.append_assoc]
    obtain ⟨p, hnext⟩ := JsonCursor.next_of_spaced position hstart _ trivial
    obtain ⟨q, hnext'⟩ := JsonCursor.next_of_spaced p hclose rest trivial
    exact ⟨_, _, q, hnext, parseValue_arrayStart_yields_iff.mpr
      ⟨hlevel, [], .inl ⟨hnext', rfl⟩, rfl⟩⟩
  | array hstart hitem hitems =>
    simp only [depth, itemsDepth] at hlevel
    simp only [List.append_assoc]
    obtain ⟨p, hnext⟩ := JsonCursor.next_of_spaced position hstart _ trivial
    obtain ⟨first, after, q, hfirst, hread⟩ := parseValue_of_spells limit (level + 1) p hitem
      (by omega) (hitems.takeWhile_isNumberChar rest)
    obtain ⟨last, hrest⟩ := parseItems_of_spells limit (level + 1) q hitems rest (by omega)
    exact ⟨_, _, last, hnext, parseValue_arrayStart_yields_iff.mpr ⟨by omega, _, .inr
      ⟨first, after, hfirst, ne_arrayEnd_of_yields hread, _, _, _, hread, hrest, rfl⟩, rfl⟩⟩
  | emptyObject hstart hclose =>
    rw [List.append_assoc]
    obtain ⟨p, hnext⟩ := JsonCursor.next_of_spaced position hstart _ trivial
    obtain ⟨q, hnext'⟩ := JsonCursor.next_of_spaced p hclose rest trivial
    exact ⟨_, _, q, hnext, parseValue_objectStart_yields_iff.mpr
      ⟨hlevel, [], .inl ⟨hnext', rfl⟩, rfl⟩⟩
  | object hstart hentry hentries =>
    simp only [depth, entriesDepth] at hlevel
    simp only [List.append_assoc]
    obtain ⟨p, hnext⟩ := JsonCursor.next_of_spaced position hstart _ trivial
    obtain ⟨first, after, q, hfirst, hread⟩ := parseEntry_of_spells limit (level + 1) p hentry
      (by omega) (hentries.takeWhile_isNumberChar rest)
    obtain ⟨last, hrest⟩ := parseEntries_of_spells limit (level + 1) q hentries rest (by omega)
    exact ⟨_, _, last, hnext, parseValue_objectStart_yields_iff.mpr ⟨by omega, _, .inr
      ⟨first, after, hfirst, ne_objectEnd_of_yields hread, _, _, _, hread, hrest, rfl⟩, rfl⟩⟩
termination_by sizeOf v

theorem parseItems_of_spells (limit level position : Nat) {items : List Json} {text : List Char}
    (h : SpellsItems items text) (rest : List Char) (hlevel : level + itemsDepth items ≤ limit) :
    ∃ p, Yields (parseItems limit level ⟨position, text ++ rest⟩) items ⟨p, rest⟩ := by
  cases h with
  | close hclose =>
    obtain ⟨p, hnext⟩ := JsonCursor.next_of_spaced position hclose rest trivial
    exact ⟨p, parseItems_yields_iff.mpr (.inl ⟨hnext, rfl⟩)⟩
  | next hcomma hitem hitems =>
    simp only [itemsDepth] at hlevel
    rw [List.append_assoc, List.append_assoc]
    obtain ⟨p, hnext⟩ := JsonCursor.next_of_spaced position hcomma _ trivial
    obtain ⟨first, after, q, hfirst, hread⟩ := parseValue_of_spells limit level p hitem
      (by omega) (hitems.takeWhile_isNumberChar rest)
    obtain ⟨last, hrest⟩ := parseItems_of_spells limit level q hitems rest (by omega)
    exact ⟨last, parseItems_yields_iff.mpr (.inr
      ⟨_, first, after, hnext, hfirst, _, _, _, hread, hrest, rfl⟩)⟩
termination_by sizeOf items

theorem parseEntry_of_spells (limit level position : Nat) {entry : String × Json}
    {text rest : List Char} (h : SpellsEntry entry text) (hlevel : level + entry.2.depth ≤ limit)
    (hend : rest.takeWhile JsonCursor.isNumberChar = []) :
    ∃ first after p, JsonCursor.next ⟨position, text ++ rest⟩ = .ok (some (first, after)) ∧
      Yields (parseEntry limit level first after) entry ⟨p, rest⟩ := by
  cases h with
  | entry hname hcolon hvalue =>
    simp only [List.append_assoc]
    obtain ⟨p, hnext⟩ := JsonCursor.next_of_spaced position hname _ trivial
    obtain ⟨q, hnext'⟩ := JsonCursor.next_of_spaced p hcolon _ trivial
    obtain ⟨first, after, last, hfirst, hread⟩ :=
      parseValue_of_spells limit level q hvalue hlevel hend
    exact ⟨_, _, last, hnext, parseEntry_yields_iff.mpr
      ⟨_, _, first, after, _, rfl, hnext', hfirst, hread, rfl⟩⟩
termination_by sizeOf entry

theorem parseEntries_of_spells (limit level position : Nat) {entries : List (String × Json)}
    {text : List Char} (h : SpellsEntries entries text) (rest : List Char)
    (hlevel : level + entriesDepth entries ≤ limit) :
    ∃ p, Yields (parseEntries limit level ⟨position, text ++ rest⟩) entries ⟨p, rest⟩ := by
  cases h with
  | close hclose =>
    obtain ⟨p, hnext⟩ := JsonCursor.next_of_spaced position hclose rest trivial
    exact ⟨p, parseEntries_yields_iff.mpr (.inl ⟨hnext, rfl⟩)⟩
  | next hcomma hentry hentries =>
    simp only [entriesDepth] at hlevel
    rw [List.append_assoc, List.append_assoc]
    obtain ⟨p, hnext⟩ := JsonCursor.next_of_spaced position hcomma _ trivial
    obtain ⟨first, after, q, hfirst, hread⟩ := parseEntry_of_spells limit level p hentry
      (by omega) (hentries.takeWhile_isNumberChar rest)
    obtain ⟨last, hrest⟩ := parseEntries_of_spells limit level q hentries rest (by omega)
    exact ⟨last, parseEntries_yields_iff.mpr (.inr
      ⟨_, first, after, hnext, hfirst, _, _, _, hread, hrest, rfl⟩)⟩
termination_by sizeOf entries

end

theorem parseWithin_sound {limit : Nat} {text : String} {v : Json}
    (h : parseWithin limit text = .ok v) : Renders v text ∧ v.depth ≤ limit := by
  simp only [parseWithin] at h
  split at h
  · cases h
  · cases h
  · next first after hnext =>
    obtain ⟨start, hstart, htext⟩ := JsonCursor.spaced_of_next hnext
    cases hroot : parseValue limit 0 first after with
    | error e =>
      rw [hroot] at h
      cases h
    | ok root =>
      rw [hroot] at h
      simp only [bind, Except.bind] at h
      split at h
      · next hend =>
        cases h
        obtain ⟨more, hmore, hspells, hdepth⟩ :=
          spells_of_parseValue ⟨root, hroot, rfl, rfl⟩ hstart (Nat.zero_le limit)
        refine ⟨⟨_, _, hspells, JsonCursor.dropWhile_eq_nil_iff_blank.mp (List.isEmpty_iff.mp hend),
          ?_⟩, by omega⟩
        rw [List.append_assoc, ← hmore, ← htext]
        rfl
      · cases h

theorem parseWithin_complete {limit : Nat} {text : String} {v : Json} (h : Renders v text)
    (hdepth : v.depth ≤ limit) : parseWithin limit text = .ok v := by
  obtain ⟨body, blank, hspells, hblank, htext⟩ := h
  have hend : blank.takeWhile JsonCursor.isNumberChar = [] := by
    by_cases hempty : blank = []
    · rw [hempty]
      rfl
    · rw [← List.append_nil blank]
      exact takeWhile_isNumberChar_of_blank hblank hempty []
  obtain ⟨first, after, p, hnext, root, hroot, rfl, hplace⟩ :=
    parseValue_of_spells limit 0 0 hspells (by omega) hend
  have hstart : (JsonCursor.ofText text).next = .ok (some (first, after)) := by
    rw [JsonCursor.ofText, htext]
    exact hnext
  have hlast : root.place.skipSpace.rest = [] := by
    rw [hplace]
    exact JsonCursor.dropWhile_eq_nil_iff_blank.mpr hblank
  simp only [parseWithin, hstart, hroot, bind, Except.bind, hlast]
  rfl

/-- The parser accepts exactly the texts of documents that are no deeper than its limit. So a text
holds one document at most, and a scalar is accepted under every limit. -/
theorem parseWithin_accepts_renderings (text : String) :
    (∀ limit v, parseWithin limit text = .ok v ↔ Renders v text ∧ v.depth ≤ limit) ∧
      (∀ v w, Renders v text → Renders w text → v = w) ∧
      ∀ v, Renders v text → (∀ items, v ≠ .array items) → (∀ entries, v ≠ .object entries) →
        ∀ limit, parseWithin limit text = .ok v := by
  refine ⟨fun limit v => ⟨parseWithin_sound, fun h => parseWithin_complete h.1 h.2⟩,
    fun v w hv hw => ?_, fun v hv harray hobject limit => parseWithin_complete hv ?_⟩
  · have hsame := (parseWithin_complete hv (Nat.le_max_left v.depth w.depth)).symm.trans
      (parseWithin_complete hw (Nat.le_max_right v.depth w.depth))
    exact Except.ok.inj hsame
  · cases v with
    | array items => exact absurd rfl (harray items)
    | object entries => exact absurd rfl (hobject entries)
    | _ => exact Nat.zero_le limit

theorem parseWithin_accepts_renderings_nullAndText :
    Renders (.array [.null, .string "\n"]) "[null ,\"\\n\"]" ∧
      parseWithin 1 "[null ,\"\\n\"]" = .ok (.array [.null, .string "\n"]) := by
  have hblank : Blank [] := List.forall_mem_nil _
  have hstart : Spaced .arrayStart ['['] := ⟨[], _, hblank, .arrayStart, rfl⟩
  have hnull : Spaced .null "null".toList := ⟨[], _, hblank, .null, rfl⟩
  have hcomma : Spaced .comma [' ', ','] :=
    ⟨[' '], _, by simp [Blank], .comma, rfl⟩
  have hescape : unescape (String.ofList ['\\', 'n']) = .ok "\n" := by
    simp [unescape, Escape.unescapeList, Escape.readChar, Escape.readEscape, Escape.shortEscape?,
      Except.map]
  have hlexeme : Lexeme (.string "\n") ('"' :: ['\\', 'n'] ++ ['"']) :=
    .escaped (.escaped .nil) (by decide) hescape
  have htext : Spaced (.string "\n") ('"' :: ['\\', 'n'] ++ ['"']) :=
    ⟨[], _, hblank, hlexeme, rfl⟩
  have hclose : Spaced .arrayEnd [']'] := ⟨[], _, hblank, .arrayEnd, rfl⟩
  have hrenders : Renders (.array [.null, .string "\n"]) "[null ,\"\\n\"]" :=
    ⟨_, [], .array hstart (.null hnull) (.next hcomma (.string htext) (.close hclose)), hblank, rfl⟩
  exact ⟨hrenders, ((parseWithin_accepts_renderings _).1 1 _).mpr ⟨hrenders, by decide⟩⟩

end Json

end RowFormat
