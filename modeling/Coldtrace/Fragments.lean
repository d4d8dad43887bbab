import Mathlib.Tactic.Common
import Coldtrace.Lib.Bytes
import Coldtrace.Records
import Coldtrace.Decoding

/-!
# Decoding a fragment

The loop of the reader over a whole fragment.  `readLoop_append` runs it over
records that apply.  `readLoop_spec` says what any run of it was: it read such
records and then it finished at a tail, raised, or ran out of fuel.  Every
record takes at least 8 bytes, so the fuel of `readBuffer` is enough.

The tail is where this format is weak.  The reader takes 32 zero bytes for the
end, whatever comes after them, so data behind a gap of zeros is lost without
an error (`zero_tail_iff`).
-/

namespace Coldtrace

open Bytes

/-! ## The loop -/

theorem length_le_recordsBytes : ∀ rs : List Record, 8 * rs.length ≤ (recordsBytes rs).length
  | [] => Nat.le_refl 0
  | r :: rs => by
      have hr := r.eight_le_length
      have hrs := length_le_recordsBytes rs
      rw [recordsBytes_cons, List.length_append, List.length_cons]
      omega

section

variable {tid : Nat} {buffer : List UInt8}

/-- The loop over records that apply. -/
theorem readLoop_append {s s' : List Nat} {rs : List Record} (h : Chain s rs s') :
    ∀ {offset : Nat} {rest : List UInt8} (fuel : Nat), (∀ r ∈ rs, ¬ r.ZeroFree) →
      buffer.drop offset = recordsBytes rs ++ rest →
      readLoop tid buffer (rs.length + fuel) s offset =
        let d := readLoop tid buffer fuel s' (offset + (recordsBytes rs).length)
        { d with entries := reported tid s rs ++ d.entries } := by
  induction h with
  | nil => intro offset rest fuel _ _; simp [reported]
  | @cons s s₁ s' r rs happ hchain ih =>
      intro offset rest fuel hz hdrop
      rw [List.forall_mem_cons] at hz
      rw [recordsBytes_cons, List.append_assoc] at hdrop
      have hlen := congrArg List.length hdrop
      have hr := r.eight_le_length
      rw [List.length_append, List.length_drop] at hlen
      have hnext : buffer.drop (offset + r.bytes.length) = recordsBytes rs ++ rest := by
        rw [← List.drop_drop, hdrop, List.drop_left]
      rw [List.length_cons, Nat.add_right_comm, readLoop, if_pos (by omega),
        readOne_of_record hdrop happ hz.1]
      simp only [reported, happ]
      rw [ih fuel hz.2 hnext, recordsBytes_cons, List.length_append, Nat.add_assoc]
      rfl

/-- Why the loop stopped, at a stack and an offset. -/
inductive Stop (tid : Nat) (buffer : List UInt8) (s : List Nat) (offset : Nat) :
    Outcome → Prop where
  | tail : (∀ b ∈ (buffer.drop offset).take 32, b = 0) → Stop tid buffer s offset (.finished s)
  | error {e : PyError} : readOne tid buffer s offset = .error e →
      Stop tid buffer s offset (.raised e)
  | fuel : Stop tid buffer s offset .diverged

/-- What a run of the loop was. -/
theorem readLoop_spec (tid : Nat) (buffer : List UInt8) :
    ∀ (fuel : Nat) (s : List Nat) (offset : Nat),
    ∃ rs s', Chain s rs s' ∧ (∀ r ∈ rs, ¬ r.ZeroFree) ∧
      (readLoop tid buffer fuel s offset).entries = reported tid s rs ∧
      (readLoop tid buffer fuel s offset).offset = offset + (recordsBytes rs).length ∧
      buffer.drop offset =
        recordsBytes rs ++ buffer.drop (readLoop tid buffer fuel s offset).offset ∧
      Stop tid buffer s' (readLoop tid buffer fuel s offset).offset
        (readLoop tid buffer fuel s offset).outcome ∧
      ((readLoop tid buffer fuel s offset).outcome = .diverged → rs.length = fuel)
  | 0, s, offset =>
      ⟨[], s, .nil, by simp, rfl, rfl, rfl, .fuel, fun _ => rfl⟩
  | fuel + 1, s, offset => by
      rw [readLoop]
      split
      next hlt =>
        split
        next e he => exact ⟨[], s, .nil, by simp, rfl, rfl, rfl, .error he, fun h => nomatch h⟩
        next hnone =>
          exact ⟨[], s, .nil, by simp, rfl, rfl, rfl, .tail (readOne_eq_none.mp hnone),
            fun h => nomatch h⟩
        next y hy =>
          obtain ⟨r, hbytes, hoff, -, happ, hentry, hz⟩ := record_of_readOne hy
          obtain ⟨rs, s', hchain, hzs, hes, hend, hdrop, hstop, hfuel⟩ :=
            readLoop_spec tid buffer fuel y.stack y.offset
          refine ⟨r :: rs, s', .cons happ hchain, List.forall_mem_cons.mpr ⟨hz, hzs⟩, ?_, ?_, ?_,
            hstop, ?_⟩
          · simp only [reported, happ, hes, hentry]
          · dsimp only
            rw [hend, hoff, recordsBytes_cons, List.length_append, Nat.add_assoc]
          · dsimp only
            rw [recordsBytes_cons, List.append_assoc, ← hdrop, hbytes]
          · intro h
            rw [List.length_cons, hfuel h]
      next hge =>
        have hnil : buffer.drop offset = [] := List.drop_eq_nil_of_le (by omega)
        exact ⟨[], s, .nil, by simp, rfl, rfl, rfl, .tail (by simp [hnil]), fun h => nomatch h⟩

/-! ## Fragments -/

/-- The fuel of `readBuffer` is enough. -/
theorem readBuffer_ne_diverged (tid : Nat) (s : List Nat) (buffer : List UInt8) :
    (readBuffer tid s buffer).outcome ≠ .diverged := by
  obtain ⟨rs, s', -, -, -, -, hdrop, -, hfuel⟩ :=
    readLoop_spec tid buffer (buffer.length + 1) s sizeofVersionHeader
  intro h
  have hlen := congrArg List.length hdrop
  have hmin := length_le_recordsBytes rs
  rw [List.length_append, List.length_drop, hfuel h] at *
  omega

/-- Decoding a fragment of records that apply, followed by a zero-filled tail. -/
theorem readBuffer_of_chain (tid : Nat) {s s' : List Nat} {rs : List Record} {tail : List UInt8}
    (h : Chain s rs s') (hz : ∀ r ∈ rs, ¬ r.ZeroFree)
    (hdrop : buffer.drop sizeofVersionHeader = recordsBytes rs ++ tail)
    (htail : ∀ b ∈ tail.take 32, b = 0) :
    readBuffer tid s buffer =
      ⟨reported tid s rs, sizeofVersionHeader + (recordsBytes rs).length, .finished s'⟩ := by
  have hlen := congrArg List.length hdrop
  have hmin := length_le_recordsBytes rs
  rw [List.length_append, List.length_drop] at hlen
  obtain ⟨fuel, hfuel⟩ : ∃ fuel, buffer.length + 1 = rs.length + (fuel + 1) :=
    ⟨buffer.length - rs.length, by omega⟩
  have hrest : buffer.drop (sizeofVersionHeader + (recordsBytes rs).length) = tail := by
    rw [← List.drop_drop, hdrop, List.drop_left]
  rw [readBuffer, hfuel, readLoop_append h (fuel + 1) hz hdrop, readLoop]
  split
  next =>
    rw [readOne_eq_none.mpr (by rw [hrest]; exact htail)]
    simp
  next => simp

/-- What a reader that finishes has read. -/
theorem chain_of_readBuffer {s s' : List Nat}
    (h : (readBuffer tid s buffer).outcome = .finished s') :
    ∃ rs, Chain s rs s' ∧ (∀ r ∈ rs, ¬ r.ZeroFree) ∧
      (readBuffer tid s buffer).entries = reported tid s rs ∧
      buffer.drop sizeofVersionHeader =
        recordsBytes rs ++ buffer.drop (readBuffer tid s buffer).offset ∧
      ∀ b ∈ (buffer.drop (readBuffer tid s buffer).offset).take 32, b = 0 := by
  obtain ⟨rs, s'', hchain, hz, hes, -, hdrop, hstop, -⟩ :=
    readLoop_spec tid buffer (buffer.length + 1) s sizeofVersionHeader
  rw [readBuffer] at h ⊢
  rw [h] at hstop
  cases hstop with
  | tail htail => exact ⟨rs, hchain, hz, hes, hdrop, htail⟩

end

/-! ## Data behind a gap of zeros -/

/-- A fragment with data the reader does not reach: records that apply, then 32
zero bytes, and later a byte that is not zero. -/
def HidesData (s : List Nat) (buffer : List UInt8) : Prop :=
  ∃ rs s' rest, Chain s rs s' ∧ (∀ r ∈ rs, ¬ r.ZeroFree) ∧
    buffer.drop sizeofVersionHeader = recordsBytes rs ++ (List.replicate 32 0 ++ rest) ∧
    ∃ b ∈ rest, b ≠ 0

/-- A reader that finishes has left only zero bytes behind, except on the
fragments that hide data. -/
theorem zero_tail_iff (tid : Nat) (s : List Nat) (buffer : List UInt8) :
    ((∃ s', (readBuffer tid s buffer).outcome = .finished s') →
      ∀ b ∈ buffer.drop (readBuffer tid s buffer).offset, b = 0) ↔ ¬ HidesData s buffer := by
  constructor
  · rintro h ⟨rs, s', rest, hchain, hz, hdrop, b, hb, hne⟩
    have hread := readBuffer_of_chain tid hchain hz hdrop
      (by rw [List.take_left' List.length_replicate]; exact fun _ => List.eq_of_mem_replicate)
    rw [hread] at h
    have hrest : buffer.drop (sizeofVersionHeader + (recordsBytes rs).length) =
        List.replicate 32 0 ++ rest := by
      rw [← List.drop_drop, hdrop, List.drop_left]
    refine hne (h ⟨s', rfl⟩ b ?_)
    rw [hrest]
    exact List.mem_append_right _ hb
  · rintro hno ⟨s', hfin⟩ b hb
    obtain ⟨rs, hchain, hz, -, hdrop, htail⟩ := chain_of_readBuffer hfin
    generalize buffer.drop (readBuffer tid s buffer).offset = tail at hb hdrop htail
    by_contra hne
    -- the nonzero byte is behind 32 zero bytes
    rcases Nat.lt_or_ge tail.length 32 with hshort | hlong
    · rw [List.take_of_length_le (by omega)] at htail
      exact hne (htail b hb)
    · have hzeros : tail.take 32 = List.replicate 32 0 :=
        List.eq_replicate_iff.mpr ⟨by rw [List.length_take]; omega, htail⟩
      rw [← List.take_append_drop 32 tail, List.mem_append] at hb
      rcases hb with hb | hb
      · exact hne (htail b hb)
      · refine hno ⟨rs, s', tail.drop 32, hchain, hz, ?_, b, hb, hne⟩
        rw [hdrop, ← hzeros, List.take_append_drop]

/-- A marker behind a gap of zeros: the reader finishes and does not report it. -/
theorem zero_gap_drops_marker :
    let buffer : List UInt8 := [1, 2, 3, 4, 5, 0, 2, 0] ++ List.replicate 32 0 ++
      [24, 0, 7, 0, 0, 0, 0, 0]
    readBuffer 1 [] buffer = ⟨[], 8, .finished []⟩ ∧ ¬ ∀ b ∈ buffer.drop 8, b = 0 := by
  decide

end Coldtrace
