import Mathlib.Data.List.Basic
import Mathlib.Data.List.Infix
import Mathlib.Data.List.TakeWhile
import Mathlib.Tactic.Common

/-!
# Strings of C

A string is the list of its bytes before the terminating zero.  The functions
are those of `string.h` and `stdio.h`.  A pointer into a string is the rest of
the string from there on.

`fgets` reads a stream in pieces: a piece ends after a newline, or when the
buffer is full.  Where every line fits, the pieces are the lines
(`filterMap_pieces`).
-/

namespace CString

def newline : UInt8 := 10

/-- The string in a buffer. -/
def ofBuffer (bytes : List UInt8) : List UInt8 := bytes.takeWhile (· ≠ 0)

/-! ## Searching -/

/-- `strchr`: from the first `c` on. -/
def strchr : List UInt8 → UInt8 → Option (List UInt8)
  | [], _ => none
  | a :: s, c => if a = c then some (a :: s) else strchr s c

/-- `strrchr`: from the last `c` on. -/
def strrchr : List UInt8 → UInt8 → Option (List UInt8)
  | [], _ => none
  | a :: s, c =>
      match strrchr s c with
      | some t => some t
      | none => if a = c then some (a :: s) else none

/-- `s[strcspn(s, c)] = 0`: up to the first `c`. -/
def upTo (s : List UInt8) (c : UInt8) : List UInt8 := s.takeWhile (· ≠ c)

/-- `strstr`, as a condition. -/
def strstr (haystack needle : List UInt8) : Bool := decide (needle <:+: haystack)

theorem strchr_append_singleton {s : List UInt8} {c d : UInt8} (h : d ≠ c) :
    strchr (s ++ [d]) c = (strchr s c).map (· ++ [d]) := by
  induction s with
  | nil => simp [strchr, h]
  | cons a s ih =>
      rw [List.cons_append, strchr, strchr]
      split
      next => rfl
      next => exact ih

theorem suffix_of_strchr {s t : List UInt8} {c : UInt8} (h : strchr s c = some t) : t <:+ s := by
  induction s with
  | nil => cases h
  | cons a s ih =>
      rw [strchr] at h
      split at h
      next =>
        cases h
        exact List.suffix_refl _
      next => exact (ih h).trans (List.suffix_cons ..)

theorem ne_of_not_mem {s : List UInt8} {c : UInt8} (h : c ∉ s) :
    ∀ d ∈ s, decide (d ≠ c) = true := by
  intro d hd
  refine decide_eq_true ?_
  rintro rfl
  exact h hd

theorem ofBuffer_eq_self {s : List UInt8} (h : 0 ∉ s) : ofBuffer s = s :=
  List.takeWhile_eq_self_iff.mpr (ne_of_not_mem h)

theorem upTo_eq_self {s : List UInt8} {c : UInt8} (h : c ∉ s) : upTo s c = s :=
  List.takeWhile_eq_self_iff.mpr (ne_of_not_mem h)

theorem upTo_concat {s : List UInt8} {c : UInt8} (h : c ∉ s) : upTo (s ++ [c]) c = s := by
  rw [upTo, List.takeWhile_append_of_pos (ne_of_not_mem h)]
  simp

theorem strrchr_eq_none {s : List UInt8} {c : UInt8} (h : c ∉ s) : strrchr s c = none := by
  induction s with
  | nil => rfl
  | cons a s ih =>
      rw [List.mem_cons, not_or] at h
      rw [strrchr, ih h.2]
      exact if_neg (Ne.symm h.1)

/-- What follows the last `c` is a suffix without another `c`. -/
theorem strrchr_eq_some_iff {s t : List UInt8} {c : UInt8} (h : c ∉ t) :
    strrchr s c = some (c :: t) ↔ c :: t <:+ s := by
  induction s with
  | nil => simp [strrchr]
  | cons a s ih =>
      rw [List.suffix_cons_iff, ← ih, strrchr]
      cases hs : strrchr s c with
      | some u =>
          refine ⟨.inr, fun hor => hor.elim (fun heq => ?_) id⟩
          -- The rest of the string would be `t`, which has no `c`.
          cases heq
          rw [strrchr_eq_none h] at hs
          cases hs
      | none =>
          simp only [reduceCtorEq, or_false]
          split
          next hac => rw [hac, Option.some_inj, eq_comm]
          next hac => simp [Ne.symm hac]

theorem exists_cons_of_strchr {s t : List UInt8} {c : UInt8} (h : strchr s c = some t) :
    ∃ rest, t = c :: rest := by
  induction s with
  | nil => cases h
  | cons a s ih =>
      rw [strchr] at h
      split at h
      next heq => exact ⟨s, heq ▸ (Option.some.inj h).symm⟩
      next => exact ih h

theorem exists_last_of_mem {s : List UInt8} {c : UInt8} (h : c ∈ s) :
    ∃ t, c ∉ t ∧ c :: t <:+ s := by
  induction s with
  | nil => cases h
  | cons a s ih =>
      by_cases hs : c ∈ s
      · obtain ⟨t, ht, hsuffix⟩ := ih hs
        exact ⟨t, ht, hsuffix.trans (List.suffix_cons a s)⟩
      · obtain rfl : c = a := (List.mem_cons.mp h).resolve_right hs
        exact ⟨s, hs, List.suffix_refl _⟩

/-! ## Reading -/

/-- At most `n` bytes of a stream, up to the first newline, and the rest. -/
def readLine : Nat → List UInt8 → List UInt8 × List UInt8
  | 0, stream => ([], stream)
  | _ + 1, [] => ([], [])
  | n + 1, c :: stream =>
      if c = newline then ([c], stream)
      else (c :: (readLine n stream).1, (readLine n stream).2)

/-- `fgets` into a buffer of `size` bytes. -/
def fgets (size : Nat) (stream : List UInt8) : Option (List UInt8 × List UInt8) :=
  match stream with
  | [] => none
  | c :: stream => some (readLine (size - 1) (c :: stream))

/-- What `fgets` returns one after the other, at most `fuel` times. -/
def reads (size : Nat) : Nat → List UInt8 → List (List UInt8)
  | 0, _ => []
  | fuel + 1, stream =>
      match fgets size stream with
      | none => []
      | some (line, rest) => line :: reads size fuel rest

/-- What `fgets` returns one after the other.  It reads at least a byte. -/
def pieces (size : Nat) (stream : List UInt8) : List (List UInt8) :=
  reads size stream.length stream

theorem length_readLine (n : Nat) (stream : List UInt8) :
    (readLine n stream).2.length ≤ stream.length := by
  induction stream generalizing n with
  | nil => cases n <;> exact Nat.le_refl _
  | cons c stream ih =>
      cases n with
      | zero => exact Nat.le_refl _
      | succ n =>
          rw [readLine]
          split
          next => exact Nat.le_succ _
          next => exact Nat.le_succ_of_le (ih n)

theorem length_fgets {size : Nat} (hsize : 2 ≤ size) {stream line rest : List UInt8}
    (h : fgets size stream = some (line, rest)) : rest.length < stream.length := by
  obtain ⟨n, rfl⟩ : ∃ n, size = n + 2 := ⟨size - 2, by omega⟩
  cases stream with
  | nil => cases h
  | cons c stream =>
      have hread : readLine (n + 1) (c :: stream) = (line, rest) := Option.some_inj.mp h
      rw [readLine] at hread
      split at hread
      next =>
        cases hread
        exact Nat.lt_succ_self _
      next =>
        cases hread
        exact Nat.lt_succ_of_le (length_readLine n stream)

theorem length_readLine_fst (n : Nat) (stream : List UInt8) :
    (readLine n stream).1.length ≤ n := by
  induction stream generalizing n with
  | nil => cases n <;> exact Nat.zero_le _
  | cons c stream ih =>
      cases n with
      | zero => exact Nat.le_refl _
      | succ n =>
          rw [readLine]
          split
          next => exact Nat.succ_le_succ (Nat.zero_le n)
          next => exact Nat.succ_le_succ (ih n)

theorem length_line {size : Nat} {stream line rest : List UInt8}
    (h : fgets size stream = some (line, rest)) : line.length ≤ size - 1 := by
  cases stream with
  | nil => cases h
  | cons c stream =>
      have hread : readLine (size - 1) (c :: stream) = (line, rest) := Option.some_inj.mp h
      have hle := length_readLine_fst (size - 1) (c :: stream)
      rw [hread] at hle
      exact hle

/-- With enough fuel the whole stream is read. -/
theorem reads_eq_pieces {size : Nat} (hsize : 2 ≤ size) {fuel : Nat} {stream : List UInt8}
    (h : stream.length ≤ fuel) : reads size fuel stream = pieces size stream := by
  suffices hfuel : ∀ fuel fuel' stream, stream.length ≤ fuel → stream.length ≤ fuel' →
      reads size fuel stream = reads size fuel' stream from
    hfuel fuel stream.length stream h (Nat.le_refl _)
  intro fuel
  induction fuel with
  | zero =>
      intro fuel' stream h _
      rw [List.eq_nil_of_length_eq_zero (Nat.le_zero.mp h)]
      cases fuel' <;> rfl
  | succ fuel ih =>
      intro fuel' stream h h'
      cases fuel' with
      | zero =>
          rw [List.eq_nil_of_length_eq_zero (Nat.le_zero.mp h')]
          rfl
      | succ fuel' =>
          rw [reads, reads]
          cases hread : fgets size stream with
          | none => rfl
          | some read =>
              obtain ⟨line, rest⟩ := read
              have hlt := length_fgets hsize hread
              exact congrArg (line :: ·) (ih fuel' rest (by omega) (by omega))

theorem pieces_of_fgets {size : Nat} (hsize : 2 ≤ size) {stream line rest : List UInt8}
    (h : fgets size stream = some (line, rest)) :
    pieces size stream = line :: pieces size rest := by
  have hlt := length_fgets hsize h
  rw [← reads_eq_pieces hsize (Nat.le_succ _), reads, h]
  exact congrArg (line :: ·) (reads_eq_pieces hsize (Nat.le_of_lt hlt))

/-! ## Lines that fit -/

theorem readLine_newline {n : Nat} {line rest : List UInt8} (hn : newline ∉ line)
    (hlen : line.length < n) :
    readLine n (line ++ newline :: rest) = (line ++ [newline], rest) := by
  induction line generalizing n with
  | nil =>
      obtain ⟨n, rfl⟩ : ∃ m, n = m + 1 := ⟨n - 1, by simp at hlen; omega⟩
      exact if_pos rfl
  | cons c line ih =>
      obtain ⟨n, rfl⟩ : ∃ m, n = m + 1 := ⟨n - 1, by simp at hlen; omega⟩
      rw [List.mem_cons, not_or] at hn
      rw [List.cons_append, readLine, if_neg (Ne.symm hn.1),
        ih hn.2 (Nat.lt_of_succ_lt_succ hlen)]
      rfl

theorem readLine_end {n : Nat} {line : List UInt8} (hn : newline ∉ line) (hlen : line.length ≤ n) :
    readLine n line = (line, []) := by
  induction line generalizing n with
  | nil => cases n <;> rfl
  | cons c line ih =>
      obtain ⟨n, rfl⟩ : ∃ m, n = m + 1 := ⟨n - 1, by simp at hlen; omega⟩
      rw [List.mem_cons, not_or] at hn
      rw [readLine, if_neg (Ne.symm hn.1), ih hn.2 (Nat.le_of_succ_le_succ hlen)]

theorem fgets_of_ne_nil {stream : List UInt8} (size : Nat) (h : stream ≠ []) :
    fgets size stream = some (readLine (size - 1) stream) := by
  cases stream with
  | nil => exact absurd rfl h
  | cons c stream => rfl

/-- Where every line fits, the pieces are the lines with their newlines.  The last
line may be empty, and then there is no piece for it. -/
theorem filterMap_pieces {β : Type} {size : Nat} (hsize : 2 ≤ size)
    {f g : List UInt8 → Option β} (hnil : f [] = none) {stream : List UInt8}
    (h : ∀ line ∈ stream.splitOn newline, line.length < size - 1 ∧
      (newline ∉ line → g line = f line ∧ g (line ++ [newline]) = f line)) :
    (pieces size stream).filterMap g = (stream.splitOn newline).filterMap f := by
  induction hlen : stream.length using Nat.strongRecOn generalizing stream with
  | ind len ih =>
      subst hlen
      by_cases hmem : newline ∈ stream
      · obtain ⟨line, rest, rfl, hn⟩ := List.eq_append_cons_of_mem hmem
        have hlines : (line ++ newline :: rest).splitOn newline = line :: rest.splitOn newline := by
          rw [List.splitOn_append_cons_self, List.splitOn_eq_singleton hn]
          rfl
        rw [hlines] at h ⊢
        obtain ⟨⟨hfit, hg⟩, hrest⟩ := List.forall_mem_cons.mp h
        have hread : fgets size (line ++ newline :: rest) = some (line ++ [newline], rest) := by
          rw [fgets_of_ne_nil size (List.append_ne_nil_of_right_ne_nil _ (List.cons_ne_nil _ _)),
            readLine_newline hn hfit]
        rw [pieces_of_fgets hsize hread, List.filterMap_cons, List.filterMap_cons, (hg hn).2,
          ih rest.length (length_fgets hsize hread) hrest rfl]
      · rw [List.splitOn_eq_singleton hmem] at h ⊢
        obtain ⟨hfit, hg⟩ := h stream (List.mem_singleton_self _)
        by_cases hempty : stream = []
        · rw [hempty, List.filterMap_cons, hnil]
          rfl
        · have hread : fgets size stream = some (stream, []) := by
            rw [fgets_of_ne_nil size hempty, readLine_end hmem (Nat.le_of_lt hfit)]
          rw [pieces_of_fgets hsize hread, List.filterMap_cons, List.filterMap_cons, (hg hmem).1]
          rfl

end CString
