import RowFormat.Proofs.InlineRows
import RowFormat.Proofs.SizedRows
import RowFormat.Proofs.SizeThreshold

namespace RowFormat

namespace Decoder

open Schema (strayText)

variable {d : Decoder} {data : ByteArray} {n : Nat} {schema : Schema} {value : Value}
  {ds : Diagnostics}

theorem own_bytes_append (h : n ≤ data.size) :
    data.extract 0 n ++ data.extract n data.size = data := by
  rw [ByteArray.extract_append_extract]
  simp [h]

theorem size_own_bytes (h : n ≤ data.size) : (data.extract 0 n).size = n := by
  rw [ByteArray.size_extract]
  omega

/-- A row of fixed size that keeps to its slots is a row by itself. -/
theorem readSized_own_bytes (h : d.readSized data data.size schema = ⟨.ok (value, n), ds⟩)
    (hfixed : schema.isFixedSize) (hslots : schema.keepsToSlots) :
    d.readSized (data.extract 0 n) n schema = ⟨.ok (value, n), ds⟩ := by
  obtain ⟨hsize, hread⟩ := readSized_all_eq_ok_iff.mp h
  have hown := Schema.rowSize?_self_of_isFixedSize hfixed hsize
  rw [← Schema.rowSize?_window] at hown
  have hlength := size_own_bytes (Schema.rowSize?_le hsize)
  have hwhole : schema.rowSize? (data.extract 0 data.size) (data.size - 0) = some n := by
    rw [ByteArray.extract_zero_size]
    exact hsize
  have hcut := reader_upTo (d := d) (n := n) hfixed hslots (Span.ofBytes data) (Nat.zero_le _) hwhole
    (by simp [Span.ofBytes]) 0
  refine readSized_eq_ok_iff.mpr ⟨hown, ?_⟩
  rw [Schema.window_of_size_le (Nat.le_of_eq hlength)]
  exact hcut.trans hread

/-- A row that is read from its own bytes is read the same whatever lies behind them. -/
theorem readSized_of_own_bytes (h : d.readSized data data.size schema = ⟨.ok (value, n), ds⟩)
    {row : Value × Nat} {es : Diagnostics}
    (hown : d.readSized (data.extract 0 n) n schema = ⟨.ok row, es⟩) (suf : ByteArray) :
    d.readSized (data.extract 0 n ++ suf) (data.extract 0 n ++ suf).size schema =
      ⟨.ok (value, n), ds⟩ := by
  have hfit := Schema.rowSize?_le (readSized_all_eq_ok_iff.mp h).1
  obtain ⟨own, m⟩ := row
  have hgrown (suf : ByteArray) :
      d.readSized (data.extract 0 n ++ suf) (data.extract 0 n ++ suf).size schema =
        ⟨.ok (own, m), es⟩ := readSized_append (by rw [size_own_bytes hfit]; exact hown) suf
  have hsame := hgrown (data.extract n data.size)
  rw [own_bytes_append hfit, h] at hsame
  rw [hgrown suf, hsame]

/-- What follows a row changes neither its size nor, if the bytes of the row are a row by themselves,
its value and its diagnostics. That they are is certain where nothing is reached through a descriptor
and every leaf keeps to its slot. -/
theorem readSized_isolated (h : d.readSized data data.size schema = ⟨.ok (value, n), ds⟩)
    (suf : ByteArray) :
    (∀ other m es, d.readSized (data.extract 0 n ++ suf) (data.extract 0 n ++ suf).size schema =
        ⟨.ok (other, m), es⟩ → m = n) ∧
      ((∃ row es, d.readSized (data.extract 0 n) n schema = ⟨.ok row, es⟩) →
        d.readSized (data.extract 0 n ++ suf) (data.extract 0 n ++ suf).size schema =
          ⟨.ok (value, n), ds⟩) ∧
      (schema.isFixedSize → schema.keepsToSlots →
        d.readSized (data.extract 0 n ++ suf) (data.extract 0 n ++ suf).size schema =
          ⟨.ok (value, n), ds⟩) := by
  refine ⟨fun other m es hother => ?_, fun ⟨row, es, hown⟩ => readSized_of_own_bytes h hown suf,
    fun hfixed hslots => readSized_of_own_bytes h (readSized_own_bytes h hfixed hslots) suf⟩
  obtain ⟨hsize, _⟩ := readSized_all_eq_ok_iff.mp h
  obtain ⟨hsize', _⟩ := readSized_all_eq_ok_iff.mp hother
  refine Schema.rowSize?_eq_of_window_eq hsize hsize' ?_
  have hlength := size_own_bytes (Schema.rowSize?_le hsize)
  rw [Schema.window_append (Nat.le_of_eq hlength), hlength, Nat.sub_self]
  simp [Schema.window]

/-- A row of a number and a text, `hi`, with all of its bytes. -/
def ownText : ByteArray :=
  ⟨#[7, 0, 0, 0, 0, 0, 0, 0, 16, 0, 0, 0, 3, 0, 0, 0, 3, 0, 0, 0, 0, 0, 0, 0, 104, 105, 0]⟩

/-- A row of a null and a truth value. -/
def nullAndTruth : ByteArray :=
  ⟨#[1, 0, 0, 0, 0, 0, 0, 0, 5, 0, 0, 0, 0, 0, 0, 0, 1, 0, 0, 0, 0, 0, 0, 0]⟩

theorem readSized_isolated_ownText :
    (standard.readSized ownText ownText.size (.tuple [.int, .str]) =
        ⟨.ok (.tuple [.int 7, .str "hi"], 27), []⟩ ∧
      ∀ suf, standard.readSized (ownText.extract 0 27 ++ suf) (ownText.extract 0 27 ++ suf).size
        (.tuple [.int, .str]) = ⟨.ok (.tuple [.int 7, .str "hi"], 27), []⟩) ∧
    standard.readSized nullAndTruth nullAndTruth.size (.tuple [.option .int, .bool]) =
        ⟨.ok (.tuple [.null, .bool true], 24), []⟩ ∧
      ∀ suf, standard.readSized (nullAndTruth.extract 0 24 ++ suf)
        (nullAndTruth.extract 0 24 ++ suf).size (.tuple [.option .int, .bool]) =
          ⟨.ok (.tuple [.null, .bool true], 24), []⟩ := by
  have htext : standard.readSized ownText ownText.size (.tuple [.int, .str]) =
      ⟨.ok (.tuple [.int 7, .str "hi"], 27), []⟩ := by rfl
  have hown : standard.readSized (ownText.extract 0 27) 27 (.tuple [.int, .str]) =
      ⟨.ok (.tuple [.int 7, .str "hi"], 27), []⟩ := by
    have hwhole : ownText.extract 0 27 = ownText := ByteArray.extract_zero_size
    rw [hwhole]
    exact htext
  have hslots : standard.readSized nullAndTruth nullAndTruth.size (.tuple [.option .int, .bool]) =
      ⟨.ok (.tuple [.null, .bool true], 24), []⟩ := by rfl
  exact ⟨⟨htext, fun suf => (readSized_isolated htext suf).2.1 ⟨_, _, hown⟩⟩, hslots,
    fun suf => (readSized_isolated hslots suf).2.2 (by rfl) (by rfl)⟩

/-- A nullable value inside a nullable leaf, with eight bytes more than its slot counts for. -/
def nestedNullable : ByteArray :=
  ⟨#[0, 0, 0, 0, 0, 0, 0, 0, 0, 0, 0, 0, 0, 0, 0, 0, 5, 0, 0, 0, 0, 0, 0, 0]⟩

/-- A row whose text lies behind it changes with the bytes there, and is no row without them. And a
nullable value inside a nullable leaf is read from behind the one slot that is counted for it. -/
theorem not_isolated_strayText :
    (standard.readSized strayText strayText.size .str = ⟨.ok (.str "hi", 16), []⟩ ∧
      standard.readSized (strayText.extract 0 16 ++ ⟨#[121, 111, 0]⟩) 19 .str =
        ⟨.ok (.str "yo", 16), []⟩ ∧
      standard.readSized (strayText.extract 0 16) 16 .str = ⟨.error (.malformedRow .str 16), []⟩ ∧
      ¬∀ suf, ∃ ds, standard.readSized (strayText.extract 0 16 ++ suf)
        (strayText.extract 0 16 ++ suf).size .str = ⟨.ok (.str "hi", 16), ds⟩) ∧
    standard.readSized nestedNullable nestedNullable.size (.tuple [.option (.option .int)]) =
        ⟨.ok (.tuple [.int 5], 16), []⟩ ∧
      ¬∀ suf, ∃ ds, standard.readSized (nestedNullable.extract 0 16 ++ suf)
        (nestedNullable.extract 0 16 ++ suf).size (.tuple [.option (.option .int)]) =
          ⟨.ok (.tuple [.int 5], 16), ds⟩ := by
  have hother : standard.readSized (strayText.extract 0 16 ++ ⟨#[121, 111, 0]⟩) 19 .str =
      ⟨.ok (.str "yo", 16), []⟩ := by
    have hbytes : strayText.extract 0 16 ++ ⟨#[121, 111, 0]⟩ =
        ⟨#[16, 0, 0, 0, 3, 0, 0, 0, 0, 0, 0, 0, 0, 0, 0, 0, 121, 111, 0]⟩ := by rfl
    rw [hbytes]
    rfl
  have halone : standard.readSized (strayText.extract 0 16) 16 .str =
      ⟨.error (.malformedRow .str 16), []⟩ := by
    have hbytes : strayText.extract 0 16 = ⟨#[16, 0, 0, 0, 3, 0, 0, 0, 0, 0, 0, 0, 0, 0, 0, 0]⟩ := by
      rfl
    rw [hbytes]
    rfl
  have hnested : ∃ fault, standard.readSized (nestedNullable.extract 0 16) 16
      (.tuple [.option (.option .int)]) = ⟨.error fault, []⟩ := by
    have hbytes : nestedNullable.extract 0 16 =
        ⟨#[0, 0, 0, 0, 0, 0, 0, 0, 0, 0, 0, 0, 0, 0, 0, 0]⟩ := by rfl
    rw [hbytes]
    exact ⟨_, rfl⟩
  refine ⟨⟨by rfl, hother, halone, fun hsame => ?_⟩, by rfl, fun hsame => ?_⟩
  · obtain ⟨ds, hread⟩ := hsame ByteArray.empty
    rw [ByteArray.append_empty, size_own_bytes (by decide), halone] at hread
    cases hread
  · obtain ⟨ds, hread⟩ := hsame ByteArray.empty
    obtain ⟨fault, herror⟩ := hnested
    rw [ByteArray.append_empty, size_own_bytes (by decide), herror] at hread
    cases hread

end Decoder

end RowFormat
