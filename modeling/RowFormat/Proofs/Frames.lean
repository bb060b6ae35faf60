import RowFormat.Proofs.Fields

namespace RowFormat

namespace Frame

/-- Sets a field of the innermost tuple, which has one there. -/
def put : List Frame → Nat → Value → List Frame
  | [], _, _ => []
  | top :: rest, i, value => { top with items := top.items.set i value } :: rest

/-- Sets the fields of the innermost tuple from an index on. -/
def fill : List Frame → Nat → List Value → List Frame
  | frames, _, [] => frames
  | frames, i, value :: values => fill (put frames i value) (i + 1) values

/-- The open tuples at `path`, the innermost of which has at least `width` fields. -/
def Room (frames : List Frame) (path : Path) (width : Nat) : Prop :=
  ∃ top rest, frames = top :: rest ∧ rest.length = path.length ∧ width ≤ top.items.length

theorem Room.length {frames : List Frame} {path : Path} {width : Nat} (h : Room frames path width) :
    frames.length = path.length + 1 := by
  obtain ⟨top, rest, rfl, hrest, _⟩ := h
  simp [hrest]

theorem Room.put {frames : List Frame} {path : Path} {width : Nat} (h : Room frames path width)
    (i : Nat) (value : Value) : Room (put frames i value) path width := by
  obtain ⟨top, rest, rfl, hrest, hwidth⟩ := h
  exact ⟨_, rest, rfl, hrest, by simpa using hwidth⟩

theorem Room.mono {frames : List Frame} {path : Path} {m n : Nat} (h : Room frames path n)
    (hmn : m ≤ n) : Room frames path m := by
  obtain ⟨top, rest, rfl, hrest, hwidth⟩ := h
  exact ⟨top, rest, rfl, hrest, by omega⟩

theorem setField_eq_put {frames : List Frame} {path : Path} {i : Nat}
    (h : Room frames path (i + 1)) (value : Value) :
    setField frames i value = .ok (put frames i value) := by
  obtain ⟨top, rest, rfl, _, hwidth⟩ := h
  simp [setField, put, show i < top.items.length by omega]

theorem closeMany_succ (n : Nat) (frames : List Frame) :
    closeMany (n + 1) frames = (closeMany n frames).bind close := by
  induction n generalizing frames with
  | zero => cases h : close frames <;> simp [closeMany, h, bind, Except.bind]
  | succ n ih =>
    cases h : close frames with
    | error e => simp [closeMany, h, bind, Except.bind]
    | ok closed =>
      have hih := ih closed
      simp only [closeMany, h, bind, Except.bind] at hih ⊢
      exact hih

theorem fill_tail (i : Nat) (values done pending : List Value) (rest : List Frame)
    (h : pending.length = values.length) :
    fill (⟨i, done ++ pending⟩ :: rest) done.length values = ⟨i, done ++ values⟩ :: rest := by
  induction values generalizing done pending with
  | nil => simp [fill, List.eq_nil_of_length_eq_zero h]
  | cons value values ih =>
    cases pending with
    | nil => simp at h
    | cons old pending =>
      have hset : (done ++ old :: pending).set done.length value = (done ++ [value]) ++ pending := by
        simp
      have hih := ih (done ++ [value]) pending (by simpa using h)
      simp only [List.length_append, List.length_singleton] at hih
      rw [fill, put, hset, hih, List.append_assoc, List.singleton_append]

theorem fill_empty (i : Nat) (values : List Value) (rest : List Frame) :
    fill (empty i values.length :: rest) 0 values = ⟨i, values⟩ :: rest := by
  exact fill_tail i values [] (List.replicate values.length .null) rest (by simp)

/-- A tuple that has been read becomes a field of the one around it. -/
theorem close_fill {frames : List Frame} {path : Path} {i : Nat} (h : Room frames path (i + 1))
    (values : List Value) :
    close (fill (empty i values.length :: frames) 0 values) = .ok (put frames i (.tuple values)) := by
  obtain ⟨top, rest, rfl, _, hwidth⟩ := h
  rw [fill_empty]
  simp [close, put, show i < top.items.length by omega]

end Frame

namespace Decoder

variable (d : Decoder) (row : OpenRow) (root : Schema)

/-- The open tuples when the leaf at `path` comes next. -/
def reach (state : RowState) (path : Path) : Except Fault (List Frame) :=
  let shared := Path.sharedLength state.last path
  ((Frame.closeMany (state.frames.length - (shared + 1)) state.frames).mapError Fault.frame).bind
    (Frame.openMany d row.start row.depth root path
      (List.range' (shared + 1) (path.length - 1 - shared)))

/-- One leaf of a row, by its reader. -/
def step (state : RowState) (leaf : Leaf) : Decoding RowState :=
  d.readLeaf root row.start row.bitmap row.fixed row.depth state ⟨leaf, d.reader leaf.schema⟩

/-- Before the next leaf of the tuple at `path` is read, from index `i` on, that tuple is opened,
which may fail. -/
def Awaits (state : RowState) (path : Path) (i : Nat) (frames : Except Fault (List Frame)) : Prop :=
  ∀ j inner, i ≤ j → reach d row root state (path ++ j :: inner) =
    frames.bind (Frame.openMany d row.start row.depth root (path ++ j :: inner)
      (List.range' (path.length + 1) inner.length))

/-- The fields of the tuple at `path` have been read up to index `i`. Tuples inside them may still
be open; `frames` is left when these are closed. -/
structure Settled (state : RowState) (path : Path) (i : Nat) (frames : List Frame) : Prop where
  last : ∃ j inner, j < i ∧ state.last = path ++ j :: inner
  height : path.length + 1 ≤ state.frames.length
  closed : Frame.closeMany (state.frames.length - (path.length + 1)) state.frames = .ok frames

variable {d row root}

theorem Settled.awaits {state : RowState} {path : Path} {i : Nat} {frames : List Frame}
    (h : Settled state path i frames) : Awaits d row root state path i (.ok frames) := by
  intro j inner hj
  obtain ⟨k, before, hk, hlast⟩ := h.last
  have hshared : Path.sharedLength state.last (path ++ j :: inner) = path.length := by
    rw [hlast, Path.sharedLength_append path (by omega)]
  have hrest : (path ++ j :: inner).length - 1 - path.length = inner.length := by
    simp only [List.length_append, List.length_cons]
    omega
  simp only [reach, hshared, hrest, h.closed, mapError_ok]

theorem Settled.outward {state : RowState} {path : Path} {i n : Nat} {inner outer : List Frame}
    (h : Settled state (path ++ [i]) n inner) (hclose : Frame.close inner = .ok outer) :
    Settled state path (i + 1) outer := by
  obtain ⟨⟨j, before, _, hlast⟩, hheight, hclosed⟩ := h
  simp only [List.length_append, List.length_singleton] at hheight hclosed
  refine ⟨⟨i, j :: before, by omega, by simpa using hlast⟩, by omega, ?_⟩
  have hsteps : state.frames.length - (path.length + 1) =
      (state.frames.length - (path.length + 1 + 1)) + 1 := by omega
  rw [hsteps, Frame.closeMany_succ, hclosed]
  exact hclose

/-- Before the first leaf of a tuple is read, the tuple is opened in the one around it. -/
theorem Awaits.enter {state : RowState} {path : Path} {i : Nat} {frames : List Frame}
    {schema : Schema} (h : Awaits d row root state path i (.ok frames))
    (hlen : frames.length = path.length + 1) (hfield : root.fieldAt? (path ++ [i]) = some schema) :
    Awaits d row root state (path ++ [i]) 0
      ((d.checkDepth (row.depth + (path ++ [i]).length) row.start).map fun _ =>
        Frame.empty i schema.fields.length :: frames) := by
  intro j inner _
  have htake : (path ++ i :: j :: inner).take (path.length + 1) = path ++ [i] := by
    simp [List.take_append, List.take_of_length_le (Nat.le_succ path.length)]
  have hopen := h i (j :: inner) (Nat.le_refl i)
  rw [show path ++ [i] ++ j :: inner = path ++ i :: j :: inner by simp, hopen]
  simp only [Except.bind, List.length_cons, List.range'_succ, Frame.openMany, htake, hfield, hlen,
    List.getLastD_concat, List.length_append, List.length_nil, Nat.zero_add]
  cases d.checkDepth (row.depth + (path.length + 1)) row.start <;> rfl

theorem Awaits.enter_error {state : RowState} {path : Path} {i : Nat} {e : Fault}
    (h : Awaits d row root state path i (.error e)) :
    Awaits d row root state (path ++ [i]) 0 (.error e) := by
  intro j inner _
  rw [show path ++ [i] ++ j :: inner = path ++ i :: j :: inner by simp, h i (j :: inner) (Nat.le_refl i)]
  rfl

open Decoding in
theorem step_eq_reach (state : RowState) (leaf : Leaf) :
    d.step row root state leaf = ((ofExcept (d.reach row root state leaf.path)).bind fun frames => do
      let slot ← access (row.fixed.advance state.offset)
      let bit := if leaf.schema.isOption then some ⟨row.bitmap, state.bit⟩ else none
      let value ← (d.reader leaf.schema slot bit (row.depth + frames.length)).within
        (Fault.field leaf.path leaf.schema slot.position)
      let frames ← ofExcept
        ((Frame.setField frames (leaf.path.getLastD 0) value).mapError Fault.frame)
      pure ⟨frames, leaf.path, (state.place.next leaf.schema).bit,
        (state.place.next leaf.schema).offset⟩) := by
  simp only [step, readLeaf, reach]
  cases (Frame.closeMany (state.frames.length - (state.last.sharedLength leaf.path + 1))
    state.frames).mapError Fault.frame <;> rfl

/-- A leaf is read as a field, and its value put into the innermost tuple. -/
theorem step_eq_readSlot {state : RowState} {path : Path} {i : Nat} {frames : List Frame}
    (h : Awaits d row root state path i (.ok frames)) (room : Frame.Room frames path (i + 1))
    (schema : Schema) :
    d.step row root state ⟨path ++ [i], schema⟩ =
      (d.readSlot row schema (path ++ [i]) state.place).bind fun r =>
        .ok ⟨Frame.put frames i r.1, path ++ [i], r.2.bit, r.2.offset⟩ := by
  have hreach : d.reach row root state (path ++ [i]) = .ok frames := h i [] (Nat.le_refl i)
  simp only [step_eq_reach, hreach, Decoding.ofExcept_ok, Decoding.ok_bind, readSlot,
    Decoding.bind_eq, Decoding.bind_assoc, Decoding.pure_eq, List.getLastD_concat, room.length,
    Frame.setField_eq_put room, mapError_ok, List.length_append, List.length_singleton]
  rfl

theorem settled_of_put {path : Path} {i bit offset : Nat} {frames : List Frame}
    (h : frames.length = path.length + 1) :
    Settled ⟨frames, path ++ [i], bit, offset⟩ path (i + 1) frames := by
  refine ⟨⟨i, [], by omega, rfl⟩, by simp [h], ?_⟩
  simp [h, Frame.closeMany]

/-- A tuple that cannot be opened is not read. -/
theorem foldlM_step_of_error {e : Fault} {state : RowState} {path : Path} {i : Nat}
    (h : Awaits d row root state path i (.error e)) (field : Schema) :
    (field.leavesAt (path ++ [i])).foldlM (d.step row root) state = .fail e := by
  by_cases hfield : field.isTuple
  · match field, hfield with
    | .tuple (first :: fields), _ =>
      rw [Schema.leavesAt, Schema.leavesFrom, List.foldlM_append,
        foldlM_step_of_error h.enter_error first]
      rfl
  · have hreach : d.reach row root state (path ++ [i]) = .error e := h i [] (Nat.le_refl i)
    rw [Schema.leavesAt_of_not_isTuple (by simpa using hfield)]
    simp only [List.foldlM_cons, step_eq_reach, hreach]
    rfl
termination_by sizeOf field

mutual

theorem foldlM_step_agrees_readField {state : RowState} {path : Path} {i : Nat}
    {frames : List Frame} (h : Awaits d row root state path i (.ok frames))
    (room : Frame.Room frames path (i + 1)) (field : Schema)
    (hfield : root.fieldAt? (path ++ [i]) = some field) :
    Decoding.Agree
      (fun next r => Settled next path (i + 1) (Frame.put frames i r.1) ∧ next.place = r.2)
      ((field.leavesAt (path ++ [i])).foldlM (d.step row root) state)
      (d.readField row field (path ++ [i]) state.place) := by
  by_cases htuple : field.isTuple
  · match field, htuple with
    | .tuple (first :: fields), _ =>
      have henter := h.enter room.length hfield
      rw [readField, Schema.leavesAt]
      cases hdepth : d.checkDepth (row.depth + (path ++ [i]).length) row.start with
      | error e =>
        rw [hdepth] at henter
        rw [Schema.leavesFrom, List.foldlM_append, foldlM_step_of_error henter]
        exact .fail e []
      | ok =>
        rw [hdepth] at henter
        have hroom : Frame.Room (Frame.empty i (first :: fields).length :: frames) (path ++ [i])
            (0 + (first :: fields).length) :=
          ⟨_, frames, rfl, by simp [room.length], by simp [Frame.empty]⟩
        have hread := foldlM_step_agrees_readFields henter first fields hroom fun k inner hk => by
          rw [Schema.fieldAt?_append, hfield]
          simp [Schema.fieldAt?, Schema.fields, hk]
        rw [← Decoding.bind_ok (List.foldlM _ state _)]
        simp only [Decoding.bind_eq, Decoding.ofExcept_ok, Decoding.ok_bind]
        refine hread.bind ?_
        rintro next ⟨values, place⟩ ⟨hnext, hplace, hlength⟩
        refine .ok [] ⟨hnext.outward ?_, hplace⟩
        simpa only [Schema.fields, ← hlength] using Frame.close_fill room values
  · have hleaf : field.isTuple = false := by simpa using htuple
    rw [Schema.leavesAt_of_not_isTuple hleaf, readField_of_not_isTuple hleaf]
    simp only [List.foldlM_cons, List.foldlM_nil, Decoding.bind_eq, Decoding.pure_eq,
      Decoding.bind_ok, step_eq_readSlot h room]
    rw [← Decoding.bind_ok (d.readSlot row field (path ++ [i]) state.place), Decoding.bind_assoc]
    exact .bind_same _ fun r => .ok [] ⟨settled_of_put (room.put i r.1).length, rfl⟩
termination_by sizeOf field

theorem foldlM_step_agrees_readFields {state : RowState} {path : Path} {i : Nat}
    {frames : List Frame} (h : Awaits d row root state path i (.ok frames)) (field : Schema)
    (fields : List Schema) (room : Frame.Room frames path (i + (field :: fields).length))
    (hfields : ∀ k inner, (field :: fields)[k]? = some inner →
      root.fieldAt? (path ++ [i + k]) = some inner) :
    Decoding.Agree
      (fun next r => Settled next path (i + (field :: fields).length) (Frame.fill frames i r.1) ∧
        next.place = r.2 ∧ r.1.length = (field :: fields).length)
      ((Schema.leavesFrom (field :: fields) path i).foldlM (d.step row root) state)
      (d.readFields row (field :: fields) path i state.place) := by
  rw [Schema.leavesFrom, List.foldlM_append, readFields]
  refine (foldlM_step_agrees_readField h (room.mono (by simp)) field (hfields 0 field rfl)).bind ?_
  rintro next ⟨value, place⟩ ⟨hnext, rfl⟩
  match fields with
  | [] => exact .ok [] ⟨hnext, rfl, rfl⟩
  | second :: fields =>
    have hroom := room.put i value
    simp only [List.length_cons] at hroom
    have hrest := foldlM_step_agrees_readFields hnext.awaits second fields
      (hroom.mono (by simp; omega)) fun k inner hk => by
        have hat := hfields (k + 1) inner hk
        rwa [show i + (k + 1) = i + 1 + k by omega] at hat
    rw [← Decoding.bind_ok (List.foldlM _ next _)]
    refine hrest.bind ?_
    rintro last ⟨values, place⟩ ⟨hlast, hplace, hlength⟩
    refine .ok [] ⟨?_, hplace, by simp [hlength]⟩
    rw [List.length_cons, show i + ((second :: fields).length + 1) =
      i + 1 + (second :: fields).length by omega]
    exact hlast
termination_by sizeOf (field :: fields)

end

/-- The stack of open tuples builds what the recursion over the fields builds. -/
theorem readTuple_eq_readRecord (d : Decoder) (field : Schema) (fields : List Schema) (span : Span)
    (depth : Nat) :
    d.readTuple (.tuple (field :: fields)) (leafReaders d (field :: fields) [] 0) span depth =
      d.readRecord (.tuple (field :: fields)) span depth := by
  refine Decoding.Agree.eq ?_
  unfold readTuple readRecord
  refine .bind_same _ fun _ => .bind_same _ fun bitmap => .bind_same _ fun fixed => ?_
  let row : OpenRow := ⟨span, bitmap, fixed, depth⟩
  let root : Schema := .tuple (field :: fields)
  let start : RowState := ⟨[Frame.empty 0 (field :: fields).length], [], 0, 0⟩
  have hstart : Awaits d row root start [] 0 (.ok start.frames) := fun j inner _ => by
    simp [reach, start, Path.sharedLength, Frame.closeMany, mapError_ok]
  have hroom : Frame.Room start.frames [] (0 + (field :: fields).length) :=
    ⟨_, [], rfl, rfl, by simp [Frame.empty]⟩
  have hread := foldlM_step_agrees_readFields hstart field fields hroom fun k inner hk => by
    simp [root, Schema.fieldAt?, Schema.fields, hk]
  simp only [leafReaders_eq, List.foldlM_map]
  refine hread.bind ?_
  rintro next ⟨values, place⟩ ⟨hnext, _, hlength⟩
  have hclosed := hnext.closed
  rw [show start.frames = [Frame.empty 0 values.length] by rw [hlength], Frame.fill_empty] at hclosed
  simp only [List.length_nil, Nat.zero_add] at hclosed
  rw [hclosed]
  exact .ok [] rfl

theorem reader_tuple (d : Decoder) (field : Schema) (fields : List Schema) (span : Span)
    (bit : Option NullBit) (depth : Nat) :
    d.reader (.tuple (field :: fields)) span bit depth =
      d.readRecord (.tuple (field :: fields)) span depth := by
  rw [reader]
  exact readTuple_eq_readRecord d field fields span depth

end Decoder

end RowFormat
