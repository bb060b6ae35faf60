import RowFormat.Proofs.StreamedRows

namespace RowFormat

namespace RowStream

/-- One step of a stream whose offset lies inside its buffer, by what it yields. -/
inductive Step (s : RowStream) : Option (Except Fault Value) → RowStream → Prop
  | ended (h : s.done ∨ s.offset = s.data.size) : Step s none s
  | row {value : Value} {size : Nat} (ds : Diagnostics) (active : s.done = false) (pos : 0 < size)
      (room : s.offset + size ≤ s.data.size)
      (sized : s.schema.rowSize? s.rest s.rest.size = some size) :
      Step s (some (.ok value))
        { s with diagnostics := s.diagnostics ++ ds, offset := s.offset + size }
  | fault (e : Fault) (ds : Diagnostics) (active : s.done = false) (room : s.offset < s.data.size) :
      Step s (some (.error e)) { s with diagnostics := s.diagnostics ++ ds, done := true }

theorem size_rest (s : RowStream) : s.rest.size = s.data.size - s.offset := by
  simp [rest, ByteArray.size_extract]

theorem next_step {s : RowStream} (h : s.offset ≤ s.data.size) : Step s s.next.1 s.next.2 := by
  unfold next
  split
  next hended =>
    refine .ended ?_
    simp only [Bool.or_eq_true, decide_eq_true_eq] at hended
    exact hended.imp_right fun hle => Nat.le_antisymm h hle
  next hopen =>
    simp only [Bool.or_eq_true, decide_eq_true_eq, not_or, Bool.not_eq_true, Nat.not_le] at hopen
    obtain ⟨hactive, hroom⟩ := hopen
    rcases hread : s.decoder.readSized s.rest s.rest.size s.schema with ⟨e | ⟨value, size⟩, ds⟩
    · exact .fault _ ds hactive hroom
    · have hsize := (Decoder.readSized_eq_ok_iff.mp hread).1
      have hfit := Schema.rowSize?_le hsize
      rw [size_rest] at hfit
      simp only
      split
      next => exact .fault _ ds hactive hroom
      next hwidth =>
        exact .row ds hactive (Nat.pos_of_ne_zero hwidth) (by omega) hsize

/-- A stream of the same rows that has not gone back, and stands inside the buffer. -/
structure Follows (t s : RowStream) : Prop where
  decoder : t.decoder = s.decoder
  data : t.data = s.data
  schema : t.schema = s.schema
  le : s.offset ≤ t.offset
  inside : t.offset ≤ t.data.size

theorem Follows.trans {s t u : RowStream} (h : Follows t s) (h' : Follows u t) : Follows u s :=
  ⟨h'.decoder.trans h.decoder, h'.data.trans h.data, h'.schema.trans h.schema,
    Nat.le_trans h.le h'.le, h'.inside⟩

theorem Step.follows {s t : RowStream} {item : Option (Except Fault Value)} (h : Step s item t)
    (hs : s.offset ≤ s.data.size) : Follows t s := by
  cases h with
  | ended _ => exact ⟨rfl, rfl, rfl, Nat.le_refl _, hs⟩
  | row _ _ _ room _ => exact ⟨rfl, rfl, rfl, Nat.le_add_right _ _, room⟩
  | fault _ _ _ room => exact ⟨rfl, rfl, rfl, Nat.le_refl _, hs⟩

theorem Step.of_none {s t : RowStream} (h : Step s none t) :
    t = s ∧ (s.done ∨ s.offset = s.data.size) := by
  cases h with
  | ended h => exact ⟨rfl, h⟩

theorem Step.of_ok {s t : RowStream} {value : Value} (h : Step s (some (.ok value)) t) :
    t.done = false ∧ ∃ size, 0 < size ∧ t.offset = s.offset + size ∧
      s.schema.rowSize? s.rest s.rest.size = some size := by
  cases h with
  | @row _ size _ active pos _ sized => exact ⟨active, size, pos, rfl, sized⟩

theorem Step.of_error {s t : RowStream} {e : Fault} (h : Step s (some (.error e)) t) :
    t.done = true ∧ t.offset = s.offset := by
  cases h
  exact ⟨rfl, rfl⟩

theorem next_of_done {s : RowStream} (h : s.done = true) : s.next = (none, s) := by
  simp [next, h]

theorem next_of_size_le {s : RowStream} (h : s.data.size ≤ s.offset) : s.next = (none, s) := by
  simp [next, h]

theorem after_succ (s : RowStream) (n : Nat) : s.after (n + 1) = (s.after n).next.2 := by
  induction n generalizing s with
  | zero => rfl
  | succ n ih => exact ih s.next.2

section

variable {s : RowStream} (hs : s.offset ≤ s.data.size)

include hs

theorem after_follows (n : Nat) : Follows (s.after n) s := by
  induction n with
  | zero => exact ⟨rfl, rfl, rfl, Nat.le_refl _, hs⟩
  | succ n ih =>
    rw [after_succ]
    exact ih.trans ((next_step ih.inside).follows ih.inside)

/-- Every step of a run is one of the steps a stream can make. -/
theorem after_step {n : Nat} {item : Option (Except Fault Value)}
    (h : (s.after n).next.1 = item) : Step (s.after n) item (s.after (n + 1)) := by
  rw [after_succ, ← h]
  exact next_step (after_follows hs n).inside

theorem after_of_ended {n m : Nat} (h : (s.after n).next.1 = none) (hle : n ≤ m) :
    s.after m = s.after n := by
  induction m, hle using Nat.le_induction with
  | base => rfl
  | succ m _ ih =>
    have hstep := after_step hs (show (s.after m).next.1 = none by rw [ih, h])
    rw [hstep.of_none.1, ih]

theorem next_of_ended {n m : Nat} (h : (s.after n).next.1 = none) (hle : n ≤ m) :
    (s.after m).next.1 = none := by
  rw [after_of_ended hs h hle, h]

theorem next_after_fault {n m : Nat} {e : Fault} (h : (s.after n).next.1 = some (.error e))
    (hlt : n < m) : (s.after m).next.1 = none := by
  have hdone := (after_step hs h).of_error.1
  exact next_of_ended hs (congrArg Prod.fst (next_of_done hdone)) hlt

/-- As long as a stream yields something, every step before has moved it on. -/
theorem add_le_offset_of_next {n : Nat} (h : (s.after n).next.1 ≠ none) :
    s.offset + n ≤ (s.after n).offset := by
  induction n with
  | zero => exact Nat.le_refl _
  | succ n ih =>
    cases hitem : (s.after n).next.1 with
    | none => exact absurd (next_of_ended hs hitem (Nat.le_succ n)) h
    | some row =>
      cases row with
      | error e => exact absurd (next_after_fault hs hitem (Nat.lt_succ_self n)) h
      | ok value =>
        obtain ⟨_, size, hpos, hoffset, _⟩ := (after_step hs hitem).of_ok
        have hbefore := ih (by simp [hitem])
        omega

/-- A stream has no more items than its buffer has bytes. -/
theorem next_of_size_le_steps {n : Nat} (h : s.data.size ≤ n) : (s.after n).next.1 = none := by
  by_contra hitem
  have hoffset := add_le_offset_of_next hs hitem
  have hdata := (after_follows hs n).data
  have hend := next_of_size_le (s := s.after n) (by rw [hdata]; omega)
  exact hitem (congrArg Prod.fst hend)

/-- A stream that is done was so from the start or has met a fault. -/
theorem exists_fault_of_done {n : Nat} (h : (s.after n).done = true) :
    s.done = true ∨ ∃ m < n, ∃ e, (s.after m).next.1 = some (.error e) := by
  induction n with
  | zero => exact Or.inl h
  | succ n ih =>
    cases hitem : (s.after n).next.1 with
    | none =>
      rw [(after_step hs hitem).of_none.1] at h
      exact (ih h).imp_right fun ⟨m, hm, e, he⟩ => ⟨m, by omega, e, he⟩
    | some row =>
      cases row with
      | error e => exact Or.inr ⟨n, Nat.lt_succ_self n, e, hitem⟩
      | ok value =>
        rw [(after_step hs hitem).of_ok.1] at h
        cases h

/-- The bytes between the offsets of a run, one part behind the other. -/
theorem joined_parts (n : Nat) :
    joined ((List.range n).map fun i =>
        s.data.extract (s.after i).offset (s.after (i + 1)).offset) =
      s.data.extract s.offset (s.after n).offset := by
  induction n with
  | zero => simp [joined, after]
  | succ n ih =>
    have hbefore := (after_follows hs n).le
    have hstep : (s.after n).offset ≤ (s.after (n + 1)).offset :=
      ((after_step hs rfl).follows (after_follows hs n).inside).le
    rw [List.range_succ, List.map_append, joined_append, ih]
    simp only [List.map_cons, List.map_nil, joined, ByteArray.append_empty,
      ByteArray.extract_append_extract]
    rw [Nat.min_eq_left hbefore, Nat.max_eq_right hstep]

/-- Without a fault, the rows of a stream make up its whole buffer. -/
theorem exists_end_of_no_fault (hactive : s.done = false)
    (h : ∀ n e, (s.after n).next.1 ≠ some (.error e)) :
    ∃ k, (s.after k).offset = s.data.size ∧
      (∀ n < k, ∃ value, (s.after n).next.1 = some (.ok value)) ∧
      (∀ n, k ≤ n → (s.after n).next.1 = none) := by
  have hexists : ∃ k, (s.after k).next.1 = none :=
    ⟨s.data.size, next_of_size_le_steps hs (Nat.le_refl _)⟩
  have hended := Nat.find_spec hexists
  refine ⟨Nat.find hexists, ?_, fun n hn => ?_, fun n hn => next_of_ended hs hended hn⟩
  · rcases (after_step hs hended).of_none.2 with hdone | hoffset
    · rcases exists_fault_of_done hs hdone with hstart | ⟨m, _, e, he⟩
      · rw [hactive] at hstart
        cases hstart
      · exact absurd he (h m e)
    · rw [hoffset, (after_follows hs _).data]
  · cases hitem : (s.after n).next.1 with
    | none => exact absurd hitem (Nat.find_min hexists hn)
    | some row =>
      cases row with
      | error e => exact absurd hitem (h n e)
      | ok value => exact ⟨value, rfl⟩

end

/-- A run over all rows of a buffer, step by step. Offsets never decrease and stay inside the
buffer. A row moves the offset by its size, which is not zero. A fault leaves the offset where it
is, and nothing comes after it. Once nothing comes the stream does not change any more, and that is
so after as many steps as there are bytes at the latest. Without a fault the parts between the
offsets make up the buffer. -/
theorem after_ofBytes_run (d : Decoder) (data : ByteArray) (schema : Schema) :
    let s := fun n => (ofBytes d data schema).after n
    let item := fun n => (s n).next.1
    (∀ n, (s n).offset ≤ (s (n + 1)).offset ∧ (s n).offset ≤ data.size) ∧
      (∀ n value, item n = some (.ok value) → ∃ size, 0 < size ∧
        (s (n + 1)).offset = (s n).offset + size ∧
        schema.rowSize? (data.extract (s n).offset data.size) (data.size - (s n).offset) =
          some size) ∧
      (∀ n e, item n = some (.error e) →
        (s (n + 1)).offset = (s n).offset ∧ ∀ m, n < m → item m = none) ∧
      (∀ n, item n = none → ∀ m, n ≤ m → s m = s n ∧ item m = none) ∧
      (∀ n, data.size ≤ n → item n = none) ∧
      ((∀ n e, item n ≠ some (.error e)) → ∃ k, (s k).offset = data.size ∧
        (∀ n < k, ∃ value, item n = some (.ok value)) ∧ (∀ n, k ≤ n → item n = none) ∧
        joined ((List.range k).map fun n => data.extract (s n).offset (s (n + 1)).offset) =
          data) := by
  intro s item
  have hstart : (ofBytes d data schema).offset ≤ (ofBytes d data schema).data.size := Nat.zero_le _
  have hfollows (n : Nat) : Follows (s n) (ofBytes d data schema) := after_follows hstart n
  have hdata (n : Nat) : (s n).data = data := (hfollows n).data
  refine ⟨fun n => ⟨?_, ?_⟩, fun n value h => ?_, fun n e h => ⟨?_, ?_⟩, fun n h m hle => ⟨?_, ?_⟩,
    fun n h => next_of_size_le_steps hstart h, fun h => ?_⟩
  · exact ((after_step hstart rfl).follows (hfollows n).inside).le
  · have hinside := (hfollows n).inside
    rwa [hdata] at hinside
  · obtain ⟨_, size, hpos, hoffset, hsize⟩ := (after_step hstart h).of_ok
    refine ⟨size, hpos, hoffset, ?_⟩
    rw [size_rest, rest, (after_follows hstart n).data, (after_follows hstart n).schema] at hsize
    exact hsize
  · exact (after_step hstart h).of_error.2
  · exact fun m hlt => next_after_fault hstart h hlt
  · exact after_of_ended hstart h hle
  · exact next_of_ended hstart h hle
  · obtain ⟨k, hend, hrows, hended⟩ := exists_end_of_no_fault hstart rfl h
    refine ⟨k, hend, hrows, hended, ?_⟩
    have hparts := joined_parts hstart k
    rw [hend] at hparts
    exact hparts.trans ByteArray.extract_zero_size

end RowStream

end RowFormat
