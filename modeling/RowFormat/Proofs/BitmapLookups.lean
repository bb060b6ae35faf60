import RowFormat.Proofs.BitmapBits
import RowFormat.Proofs.ReaderInvariant

namespace RowFormat

namespace NullBitmap

/-- A lookup in a bitmap that lies in the buffer only fails behind its last word. -/
theorem isNull_eq_error {span : Span} {words i : Nat} {bitmap : NullBitmap} {e : BoundsError}
    (h : ofSpan span words = .ok bitmap) (hnull : bitmap.isNull i = .error e) :
    e = .wordOutOfRange (i / bitmapWordBits) words ∧ bitmapWordBits * words ≤ i := by
  obtain ⟨hroom, rfl⟩ := ofSpan_eq_ok_iff.mp h
  by_cases hi : i < bitmapWordBits * words
  · obtain ⟨byte, -, hread⟩ := isNull_eq_testBit (b := ⟨span, words⟩) hroom hi
    rw [hread] at hnull
    cases hnull
  · simp only [bitmapWordBits] at hi
    have hword : ¬i / bitmapWordBits < words := by
      simp only [bitmapWordBits]
      omega
    rw [isNull, word, if_neg hword] at hnull
    cases hnull
    exact ⟨rfl, by simp only [bitmapWordBits]; omega⟩

end NullBitmap

/-- The row before its first leaf. -/
def RowState.start (root : Schema) : RowState :=
  { frames := [Frame.empty 0 root.fields.length], last := [], bit := 0, offset := 0 }

namespace Decoder

variable {d : Decoder}

section Steps

variable {root : Schema} {row : Span} {bitmap : NullBitmap} {fixed : Span} {depth : Nat}

/-- A nullable leaf takes a bit, and no other leaf does. -/
theorem bit_of_readLeaf {state next : RowState} {reader : LeafReader} {ds : Diagnostics}
    (h : d.readLeaf root row bitmap fixed depth state reader = ⟨.ok next, ds⟩) :
    next.bit = state.bit + [reader].countP (·.leaf.schema.isOption) := by
  obtain ⟨_, _, _, -, h, -⟩ := Decoding.bind_eq_ok_iff.mp h
  obtain ⟨_, _, _, -, h, -⟩ := Decoding.bind_eq_ok_iff.mp h
  obtain ⟨_, -, h⟩ := Decoding.access_bind_eq_ok_iff.mp h
  obtain ⟨_, _, _, -, h, -⟩ := Decoding.bind_eq_ok_iff.mp h
  obtain ⟨_, _, _, -, h, -⟩ := Decoding.bind_eq_ok_iff.mp h
  cases h
  rw [List.countP_singleton]
  split <;> rfl

/-- As many bits have been taken as nullable leaves have been read. -/
theorem bit_of_readLeaves {readers : List LeafReader} {state last : RowState} {ds : Diagnostics}
    (h : readers.foldlM (d.readLeaf root row bitmap fixed depth) state = ⟨.ok last, ds⟩) :
    last.bit = state.bit + readers.countP (·.leaf.schema.isOption) := by
  induction readers generalizing state ds with
  | nil =>
    cases h
    rfl
  | cons reader readers ih =>
    rw [List.foldlM_cons] at h
    obtain ⟨next, _, _, hnext, hrest, -⟩ := Decoding.bind_eq_ok_iff.mp h
    have hsplit : reader :: readers = [reader] ++ readers := rfl
    rw [ih hrest, bit_of_readLeaf hnext, hsplit, List.countP_append, Nat.add_assoc]

end Steps

/-- A row whose bitmap has been found comes to one of its leaves. -/
structure LeafTurn (d : Decoder) (fields : List Schema) where
  row : Span
  depth : Nat
  bitmap : NullBitmap
  fixed : Span
  before : List LeafReader
  reader : LeafReader
  behind : List LeafReader
  state : RowState
  reports : Diagnostics
  accepted : NullBitmap.ofSpan row (Schema.tuple fields).bitmapWords = .ok bitmap
  order : leafReaders d fields [] 0 = before ++ reader :: behind
  reached : before.foldlM (d.readLeaf (.tuple fields) row bitmap fixed depth)
    (.start (.tuple fields)) = ⟨.ok state, reports⟩

namespace LeafTurn

variable {fields : List Schema} (turn : LeafTurn d fields)

def read (read : Reader) : Decoding RowState :=
  d.readLeaf (.tuple fields) turn.row turn.bitmap turn.fixed turn.depth turn.state
    ⟨turn.reader.leaf, read⟩

/-- The leaf is read with this null bit: what would read it alike with the bit could take the place of
its reader. -/
def Hands (bit : NullBit) : Prop :=
  ∀ read : Reader,
    (∀ slot depth, read slot (some bit) depth = turn.reader.read slot (some bit) depth) →
    turn.read read = turn.read turn.reader.read

theorem hands_bit (h : turn.reader.leaf.schema.isOption) :
    turn.Hands ⟨turn.bitmap, turn.state.bit⟩ := by
  intro read hread
  simp only [LeafTurn.read, readLeaf, h, if_true, hread]

theorem read_eq_reader : turn.reader.read = d.reader turn.reader.leaf.schema := by
  have hmem : turn.reader ∈ leafReaders d fields [] 0 := by
    rw [turn.order]
    exact List.mem_append_right _ List.mem_cons_self
  rw [leafReaders_eq] at hmem
  obtain ⟨leaf, -, hreader⟩ := List.mem_map.mp hmem
  rw [← hreader]

theorem bit_eq_countP : turn.state.bit = turn.before.countP (·.leaf.schema.isOption) := by
  rw [bit_of_readLeaves turn.reached]
  exact Nat.zero_add _

theorem leaves_eq : Schema.leavesFrom fields [] 0 =
    turn.before.map (·.leaf) ++ turn.reader.leaf :: turn.behind.map (·.leaf) := by
  have horder := congrArg (List.map (·.leaf)) turn.order
  rw [leafReaders_eq, List.map_map, List.map_append, List.map_cons] at horder
  exact (List.map_id _).symm.trans horder

theorem bit_eq_behind : turn.state.bit = (Place.behind (turn.before.map (·.leaf))).bit := by
  rw [bit_eq_countP, Place.behind, List.countP_map]
  rfl

theorem bit_lt (h : turn.reader.leaf.schema.isOption) :
    turn.state.bit < bitmapWordBits * (Schema.tuple fields).bitmapWords := by
  rw [bit_eq_behind]
  exact Place.bit_behind_lt turn.leaves_eq h

theorem exists_isNull (h : turn.reader.leaf.schema.isOption) :
    ∃ null, turn.bitmap.isNull turn.state.bit = .ok null := by
  rw [bit_eq_behind]
  exact NullBitmap.exists_isNull_behind turn.accepted turn.leaves_eq h

/-- A nullable leaf is null if its bit says so, and read without it otherwise. -/
theorem read_eq_of_isNull (h : turn.reader.leaf.schema.isOption) {bit : NullBit} {null : Bool}
    (hnull : bit.isNull = .ok null) (slot : Span) (depth : Nat) :
    turn.reader.read slot (some bit) depth = if null then .ok .null
      else d.reader turn.reader.leaf.schema.withoutOption slot none depth := by
  rw [turn.read_eq_reader]
  cases hschema : turn.reader.leaf.schema with
  | option inner =>
    rw [Decoder.reader]
    refine (readOption_some _ slot bit depth).trans ?_
    rw [hnull]
    rfl
  | _ =>
    rw [hschema] at h
    cases h

end LeafTurn

/-- Null bits are looked up in range. A tuple counts one bit for each of its nullable leaves. Whatever
row is read, whose bitmap lies in the buffer, and whichever nullable leaf it has come to: the leaf is
read with the bit whose index is the number of nullable leaves in front of it, which the bitmap has,
so that its lookup succeeds and decides whether the leaf is null. A bitmap that lies in the buffer only
refuses a bit for a word that it does not have, and no value that comes without a bit is refused for
such a word. -/
theorem lookups_in_range (d : Decoder) (fields : List Schema) :
    (Schema.tuple fields).optionCount = (Schema.tuple fields).leaves.countP (·.schema.isOption) ∧
    (∀ turn : LeafTurn d fields, turn.reader.leaf.schema.isOption →
      turn.Hands ⟨turn.bitmap, turn.state.bit⟩ ∧
      turn.state.bit = turn.before.countP (·.leaf.schema.isOption) ∧
      turn.state.bit < bitmapWordBits * (Schema.tuple fields).bitmapWords ∧
      ∃ null, turn.bitmap.isNull turn.state.bit = .ok null ∧
        ∀ slot depth, turn.reader.read slot (some ⟨turn.bitmap, turn.state.bit⟩) depth =
          if null then .ok .null
          else d.reader turn.reader.leaf.schema.withoutOption slot none depth) ∧
    (∀ span words bitmap i e, NullBitmap.ofSpan span words = .ok bitmap →
      bitmap.isNull i = .error e →
      e = .wordOutOfRange (i / bitmapWordBits) words ∧ bitmapWordBits * words ≤ i) ∧
    ∀ schema span depth fault ds, d.reader schema span none depth = ⟨.error fault, ds⟩ →
      fault.isLookup = false := by
  refine ⟨Schema.optionCounts_eq_countP fields [] 0, fun turn h => ?_, ?_, ?_⟩
  · obtain ⟨null, hnull⟩ := turn.exists_isNull h
    exact ⟨turn.hands_bit h, turn.bit_eq_countP, turn.bit_lt h, null, hnull,
      turn.read_eq_of_isNull h hnull⟩
  · exact fun span words bitmap i e => NullBitmap.isNull_eq_error
  · intro schema span depth fault ds hfault
    have hread := reader_regular (d.keeps_true span.data.size) schema span none depth rfl
    exact (hread.fault hfault (fun _ => trivial) answers_none).notLookup

/-- Fields of which the first and the last are nullable. -/
def nullableEnds : List Schema := [.option .int, .bool, .option .str]

/-- A row of these whose first field is null. It ends in front of the descriptor of the last one. -/
def rowWithoutText : ByteArray :=
  ⟨#[1, 0, 0, 0, 0, 0, 0, 0, 0, 0, 0, 0, 0, 0, 0, 0, 1, 0, 0, 0, 0, 0, 0, 0]⟩

/-- The row when its first two fields have been read. -/
def turnToText : LeafTurn standard nullableEnds where
  row := Span.ofBytes rowWithoutText
  depth := 0
  bitmap := ⟨Span.ofBytes rowWithoutText, 1⟩
  fixed := ⟨rowWithoutText, 8⟩
  before := leafReaders standard [.option .int, .bool] [] 0
  reader := ⟨⟨[2], .option .str⟩, reader standard (.option .str)⟩
  behind := []
  state := ⟨[⟨0, [.null, .bool true, .null]⟩], [1], 1, 16⟩
  reports := []
  accepted := rfl
  order := rfl
  reached := by rfl

theorem lookups_in_range_rowWithoutText :
    turnToText.Hands ⟨turnToText.bitmap, 1⟩ ∧ turnToText.bitmap.isNull 1 = .ok false ∧
      ∃ fault, standard.readRow rowWithoutText (.tuple nullableEnds) = ⟨.error fault, []⟩ ∧
        fault = .field [2] (.option .str) 24 (.bounds (.readPastEnd 8 24 24)) ∧
        fault.isLookup = false := by
  obtain ⟨-, hturn, -, hfault⟩ := lookups_in_range standard nullableEnds
  obtain ⟨hhands, -, -, null, hnull, -⟩ := hturn turnToText rfl
  have hread : standard.readRow rowWithoutText (.tuple nullableEnds) =
      ⟨.error (.field [2] (.option .str) 24 (.bounds (.readPastEnd 8 24 24))), []⟩ := by rfl
  exact ⟨hhands, rfl, _, hread, rfl, hfault _ _ 0 _ _ hread⟩

end Decoder

end RowFormat
