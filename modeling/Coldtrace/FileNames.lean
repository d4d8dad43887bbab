import Mathlib.Data.Set.Basic
import Mathlib.Tactic.Common
import Coldtrace.Lib.Decimal
import Coldtrace.Writer
import Coldtrace.Config

/-!
# File names

The writer names a fragment file with `sprintf`, from the pattern that
`coldtrace_set_path` makes of the user's path, the thread id and the fragment
number.  The dumper takes the two numbers from the name again, with a regular
expression.

Two things stand between them.  The path is part of the format, so a percent
sign in it is not text.  And both numbers are printed with `%d`, which prints
the low 32 bits of its argument as a signed number.  `file_names_iff` says that
nothing else does.
-/

namespace Coldtrace

open Decimal

/-! ## Printing -/

/-- The percent sign. -/
def percent : UInt8 := 37

/-- What `%d` prints for a word: its low 32 bits as a signed number. -/
def formatInt (a : Nat) : List UInt8 :=
  let v := a % 2 ^ 32
  if v < 2 ^ 31 then decimal v else 45 :: decimal (2 ^ 32 - v)

/-- `sprintf` with words as arguments.  The result is `none` where C does not
define one: a format that ends in a percent sign, and a conversion without an
argument.  It is also `none` for a conversion other than `%%` and `%d`.  Such a
conversion takes an argument, and the two `%d` of `COLDTRACE_FILE_SUFFIX` need
all there are. -/
def sprintf : List UInt8 → List Nat → Option (List UInt8)
  | [], _ => some []
  | [c], _ => if c = percent then none else some [c]
  | c :: d :: format, args =>
      if c ≠ percent then (sprintf (d :: format) args).map (c :: ·)
      else if d = percent then (sprintf format args).map (percent :: ·)
      else if d = 100 then
        match args with
        | [] => none
        | a :: args => (sprintf format args).map (formatInt a ++ ·)
      else none

/-- `FORMAT_EXPANSION_SPACE`. -/
def formatExpansionSpace : Nat := 20

/-- The name of a fragment file, as `first_fragment_` and `flush_` make it. -/
def fileName (pattern : List UInt8) (tid : UInt64) (enumerator : UInt32) : Option (List UInt8) :=
  sprintf pattern [tid.toNat, enumerator.toNat]

/-! ## Parsing -/

/-- The text after a literal of a regular expression. -/
def skip (literal s : List UInt8) : Option (List UInt8) :=
  if literal.isPrefixOf s then some (s.drop literal.length) else none

/-- The number of a group `\d+`, and the text after it.  The group is followed
by something that is not a digit, so it takes all digits there are. -/
def takeNumber (s : List UInt8) : Option (Nat × List UInt8) :=
  if s.takeWhile isDigit = [] then none
  else some (value (s.takeWhile isDigit), s.dropWhile isDigit)

/-- `TRACE_FILE_PATTERN.fullmatch`, with the numbers of the groups. -/
def matchTraceFile (name : List UInt8) : Option (Nat × Nat) := do
  let s ← skip (ascii "freezer_log_") name
  let (tid, s) ← takeNumber s
  let s ← skip (ascii "_") s
  let (fragment, s) ← takeNumber s
  if s = ascii ".bin" then some (tid, fragment) else none

/-- The last component of a path. -/
def baseName (path : List UInt8) : List UInt8 := (path.reverse.takeWhile (· ≠ 47)).reverse

/-! ## What the names should be -/

/-- The name of the file in the directory. -/
def traceFile (tid fragment : Nat) : List UInt8 :=
  ascii "freezer_log_" ++ (decimal tid ++ (ascii "_" ++ (decimal fragment ++ ascii ".bin")))

/-- The names are right for the numbers that are used. -/
structure NamesRoundTrip (path : List UInt8) (used : Set (UInt64 × UInt32)) : Prop where
  /-- `path_` has room for the path. -/
  path_fits : path.length + 1 ≤ defaultPathSize
  /-- `pattern_` has room for the pattern. -/
  pattern_fits : (setPath {} path).2.pattern.length + 1 ≤ defaultPathSize
  name : ∀ p ∈ used, fileName (setPath {} path).2.pattern p.1 p.2 =
    some (path ++ ascii "/" ++ traceFile p.1.toNat p.2.toNat)
  /-- `file_name` has room for the name. -/
  name_fits : ∀ p ∈ used, ∀ name, fileName (setPath {} path).2.pattern p.1 p.2 = some name →
    name.length + 1 ≤ (setPath {} path).2.pattern.length + formatExpansionSpace
  distinct : ∀ p ∈ used, ∀ q ∈ used, fileName (setPath {} path).2.pattern p.1 p.2 =
    fileName (setPath {} path).2.pattern q.1 q.2 → p = q
  recovered : ∀ p ∈ used, ∀ name, fileName (setPath {} path).2.pattern p.1 p.2 = some name →
    matchTraceFile (baseName name) = some (p.1.toNat, p.2.toNat)

/-! ## The parser finds the numbers -/

theorem skip_append (literal s : List UInt8) : skip literal (literal ++ s) = some s := by
  simp [skip]

theorem takeNumber_decimal {rest : List UInt8} (n : Nat)
    (h : rest.head?.any isDigit = false) : takeNumber (decimal n ++ rest) = some (n, rest) := by
  rw [takeNumber, takeWhile_decimal n h, dropWhile_decimal n h, if_neg (decimal_ne_nil n),
    value_decimal]

theorem matchTraceFile_traceFile (tid fragment : Nat) :
    matchTraceFile (traceFile tid fragment) = some (tid, fragment) := by
  have htid : takeNumber (decimal tid ++ (ascii "_" ++ (decimal fragment ++ ascii ".bin"))) =
      some (tid, ascii "_" ++ (decimal fragment ++ ascii ".bin")) := takeNumber_decimal tid rfl
  have hfragment : takeNumber (decimal fragment ++ ascii ".bin") = some (fragment, ascii ".bin") :=
    takeNumber_decimal fragment rfl
  simp only [matchTraceFile, traceFile, skip_append, htid, hfragment, Option.bind_eq_bind,
    Option.bind_some, if_true]

theorem baseName_append {name : List UInt8} (path : List UInt8) (h : ∀ c ∈ name, c ≠ 47) :
    baseName (path ++ ascii "/" ++ name) = name := by
  rw [baseName, List.reverse_append, List.takeWhile_append_of_pos]
  · simp [ascii]
  · intro c hc
    simpa using h c (List.mem_reverse.mp hc)

theorem traceFile_no_slash (tid fragment : Nat) : ∀ c ∈ traceFile tid fragment, c ≠ 47 := by
  have hdec : ∀ n, ∀ c ∈ decimal n, c ≠ 47 := by
    rintro n c hc rfl
    exact absurd (isDigit_of_mem_decimal hc) (by decide)
  have hlit : ∀ c ∈ ascii "freezer_log_" ++ (ascii "_" ++ ascii ".bin"), c ≠ 47 := by
    have hall : (ascii "freezer_log_" ++ (ascii "_" ++ ascii ".bin")).all (· != 47) = true := by
      decide
    simpa only [List.all_eq_true, bne_iff_ne] using hall
  intro c hc
  simp only [traceFile, List.mem_append] at hc hlit
  rcases hc with h | h | h | h | h
  · exact hlit c (.inl h)
  · exact hdec tid c h
  · exact hlit c (.inr (.inl h))
  · exact hdec fragment c h
  · exact hlit c (.inr (.inr h))

/-! ## The printer -/

/-- The file name that the suffix prints. -/
def printedFile (tid fragment : Nat) : List UInt8 :=
  ascii "freezer_log_" ++ (formatInt tid ++ (ascii "_" ++ (formatInt fragment ++ ascii ".bin")))

theorem sprintf_char {c : UInt8} (h : c ≠ percent) (format : List UInt8) (args : List Nat) :
    sprintf (c :: format) args = (sprintf format args).map (c :: ·) := by
  cases format with
  | nil => simp only [sprintf, if_neg h, Option.map_some]
  | cons d format => cases args <;> rw [sprintf, if_pos h]

theorem sprintf_append {text : List UInt8} (h : percent ∉ text) (format : List UInt8)
    (args : List Nat) : sprintf (text ++ format) args = (sprintf format args).map (text ++ ·) := by
  induction text with
  | nil => simp
  | cons c cs ih =>
      rw [List.mem_cons, not_or] at h
      rw [List.cons_append, sprintf_char (Ne.symm h.1), ih h.2, Option.map_map]
      rfl

theorem sprintf_int (format : List UInt8) (a : Nat) (args : List Nat) :
    sprintf (percent :: 100 :: format) (a :: args) =
      (sprintf format args).map (formatInt a ++ ·) := by
  rw [sprintf, if_neg (by simp), if_neg (by decide), if_pos rfl]

theorem sprintf_fileSuffix (tid fragment : Nat) :
    sprintf fileSuffix [tid, fragment] = some (ascii "/" ++ printedFile tid fragment) := by
  have hsuffix : fileSuffix = ascii "/freezer_log_" ++
      (percent :: 100 :: (ascii "_" ++ (percent :: 100 :: (ascii ".bin" ++ [])))) := by decide
  have hslash : ascii "/freezer_log_" = ascii "/" ++ ascii "freezer_log_" := by decide
  rw [hsuffix, sprintf_append (by decide), sprintf_int, sprintf_append (by decide), sprintf_int,
    sprintf_append (by decide), sprintf]
  simp only [Option.map_some, List.append_nil, printedFile, hslash, List.append_assoc]

theorem formatInt_head (a : Nat) : ∃ c cs, formatInt a = c :: cs ∧ c ≠ percent := by
  rw [formatInt]
  split
  next =>
    obtain ⟨c, cs, hcs⟩ := List.exists_cons_of_ne_nil (decimal_ne_nil (a % 2 ^ 32))
    refine ⟨c, cs, hcs, ?_⟩
    rintro rfl
    exact absurd (isDigit_of_mem_decimal (c := percent) (by rw [hcs]; simp)) (by decide)
  next => exact ⟨45, _, rfl, by decide⟩

/-- What a percent sign prints. -/
theorem sprintf_percent {d : UInt8} {format out : List UInt8} {args : List Nat}
    (h : sprintf (percent :: d :: format) args = some out) :
    (∃ out', d = percent ∧ sprintf format args = some out' ∧ out = percent :: out') ∨
      ∃ a out', out = formatInt a ++ out' := by
  have hpercent : ¬ percent ≠ percent := fun h => h rfl
  cases args with
  | nil =>
      rw [sprintf, if_neg hpercent] at h
      split at h
      next hd =>
        obtain ⟨out', hout', rfl⟩ := Option.map_eq_some_iff.mp h
        exact .inl ⟨out', hd, hout', rfl⟩
      next => split at h <;> cases h
  | cons a args =>
      rw [sprintf, if_neg hpercent] at h
      split at h
      next hd =>
        obtain ⟨out', hout', rfl⟩ := Option.map_eq_some_iff.mp h
        exact .inl ⟨out', hd, hout', rfl⟩
      next =>
        split at h
        · obtain ⟨out', -, rfl⟩ := Option.map_eq_some_iff.mp h
          exact .inr ⟨a, out', rfl⟩
        · cases h

theorem formatInt_append_ne {a : Nat} {out out' : List UInt8} :
    percent :: out ≠ formatInt a ++ out' := by
  obtain ⟨c, cs, hcs, hne⟩ := formatInt_head a
  intro h
  rw [hcs, List.cons_append] at h
  exact hne (List.cons.inj h).1.symm

theorem replicate_append_cons {α : Type} (k : Nat) (x : α) (l : List α) :
    List.replicate k x ++ x :: l = x :: (List.replicate k x ++ l) := by
  rw [← List.cons_append, ← List.replicate_succ, List.replicate_succ', List.append_assoc]
  rfl

/-- A path is printed as it is only if it has no percent sign.  Each `%%` makes
the output one percent sign shorter than the path, and the `k` signs it lags
behind are never made up for. -/
theorem not_percent_of_sprintf {rest : List UInt8} {a b : Nat} : ∀ (k : Nat) (path : List UInt8),
    sprintf (path ++ fileSuffix) [a, b] = some (List.replicate k percent ++ (path ++ rest)) →
    k = 0 ∧ percent ∉ path
  | 0, [], _ => ⟨rfl, List.not_mem_nil⟩
  | k + 1, [], h => by
      rw [List.nil_append, sprintf_fileSuffix, List.replicate_succ, List.cons_append] at h
      have hhead : (47 : UInt8) = percent := by
        simpa [ascii] using congrArg (Option.map List.head?) h
      exact absurd hhead (by decide)
  | k, c :: path, h => by
      by_cases hc : c = percent
      · subst hc
        rw [List.cons_append, List.cons_append, replicate_append_cons] at h
        cases path with
        | nil =>
            rcases sprintf_percent h with ⟨out', hd, -⟩ | ⟨a, out', hout⟩
            · exact absurd hd (by decide)
            · exact absurd hout formatInt_append_ne
        | cons d path =>
            rcases sprintf_percent h with ⟨out', rfl, hout', hout⟩ | ⟨a, out', hout⟩
            · rw [← (List.cons.inj hout).2, List.cons_append, replicate_append_cons,
                ← List.cons_append, ← List.replicate_succ] at hout'
              exact absurd (not_percent_of_sprintf (k + 1) path hout').1 (Nat.succ_ne_zero k)
            · exact absurd hout formatInt_append_ne
      · rw [List.cons_append, sprintf_char hc] at h
        obtain ⟨out, hout, heq⟩ := Option.map_eq_some_iff.mp h
        cases k with
        | zero =>
            rw [List.replicate_zero, List.nil_append, List.cons_append] at heq
            rw [(List.cons.inj heq).2] at hout
            obtain ⟨-, hpath⟩ := not_percent_of_sprintf 0 path hout
            exact ⟨rfl, by simp [Ne.symm hc, hpath]⟩
        | succ k =>
            rw [List.replicate_succ, List.cons_append] at heq
            exact absurd (List.cons.inj heq).1 hc

/-! ## Numbers -/

theorem formatInt_of_lt {n : Nat} (h : n < 2 ^ 31) : formatInt n = decimal n := by
  have hmod : n % 2 ^ 32 = n := Nat.mod_eq_of_lt (by omega)
  rw [formatInt, hmod, if_pos h]

/-- `%d` prints a number in decimal only below `2 ^ 31`. -/
theorem lt_of_formatInt {n : Nat} {rest rest' : List UInt8}
    (hrest : rest.head?.any isDigit = false) (hrest' : rest'.head?.any isDigit = false)
    (h : formatInt n ++ rest = decimal n ++ rest') : n < 2 ^ 31 := by
  have htake : (formatInt n ++ rest).takeWhile isDigit = decimal n := by
    rw [h, takeWhile_decimal n hrest']
  rw [formatInt] at htake
  split at htake
  next hlt =>
    rw [takeWhile_decimal _ hrest] at htake
    rwa [decimal_injective htake] at hlt
  next =>
    rw [List.cons_append, List.takeWhile_cons_of_neg (by decide)] at htake
    exact absurd htake.symm (decimal_ne_nil n)

theorem length_formatInt_le (n : Nat) : (formatInt n).length ≤ 11 := by
  rw [formatInt]
  split
  next h => exact Nat.le_succ_of_le (length_decimal_le (by decide) (by omega))
  next h =>
    rw [List.length_cons]
    exact Nat.succ_le_succ (length_decimal_le (by decide) (by omega))

/-! ## The whole name -/

theorem setPath_accepts {path : List UInt8} (h : (setPath {} path).1 = true) :
    path.length < 105 ∧ (setPath {} path).2.pattern = path ++ fileSuffix := by
  have h105 : defaultPathSize - (fileSuffix.length + 1) = 105 := by decide
  rw [setPath, h105] at h ⊢
  split at h
  next => cases h
  next hlt =>
    rw [if_neg hlt]
    exact ⟨Nat.lt_of_not_le hlt, rfl⟩

section

variable {path : List UInt8} {tid : UInt64} {enumerator : UInt32}

theorem fileName_eq (h : percent ∉ path) (tid : UInt64) (enumerator : UInt32) :
    fileName (path ++ fileSuffix) tid enumerator =
      some (path ++ (ascii "/" ++ printedFile tid.toNat enumerator.toNat)) := by
  rw [fileName, sprintf_append h, sprintf_fileSuffix, Option.map_some]

theorem printedFile_of_lt {tid fragment : Nat} (htid : tid < 2 ^ 31) (hfrag : fragment < 2 ^ 31) :
    printedFile tid fragment = traceFile tid fragment := by
  rw [printedFile, traceFile, formatInt_of_lt htid, formatInt_of_lt hfrag]

theorem lt_of_printedFile {tid fragment : Nat}
    (h : printedFile tid fragment = traceFile tid fragment) :
    tid < 2 ^ 31 ∧ fragment < 2 ^ 31 := by
  have htail := List.append_cancel_left h
  have htid : tid < 2 ^ 31 := lt_of_formatInt rfl rfl htail
  rw [formatInt_of_lt htid] at htail
  have hfrag := List.append_cancel_left (List.append_cancel_left htail)
  exact ⟨htid, lt_of_formatInt rfl rfl hfrag⟩

/-- A file name and its terminator fit in `file_name`, whatever the numbers. -/
theorem length_fileName {name : List UInt8} (h : percent ∉ path)
    (hname : fileName (path ++ fileSuffix) tid enumerator = some name) :
    name.length + 1 ≤ (path ++ fileSuffix).length + formatExpansionSpace := by
  rw [fileName_eq h] at hname
  obtain rfl := Option.some.inj hname
  have htid := length_formatInt_le tid.toNat
  have henum := length_formatInt_le enumerator.toNat
  have h1 : (ascii "/").length = 1 := by decide
  have h12 : (ascii "freezer_log_").length = 12 := by decide
  have h1' : (ascii "_").length = 1 := by decide
  have h4 : (ascii ".bin").length = 4 := by decide
  have h22 : fileSuffix.length = 22 := by decide
  simp only [printedFile, List.length_append, h1, h12, h1', h4, h22, formatExpansionSpace]
  omega

end

/-- The names of the fragment files of an accepted path are right for the
numbers used exactly when the path has no percent sign and the numbers are below
`2 ^ 31`. -/
theorem file_names_iff (path : List UInt8) (haccepted : (setPath {} path).1 = true)
    (used : Set (UInt64 × UInt32)) (hused : used.Nonempty) :
    NamesRoundTrip path used ↔
      percent ∉ path ∧ ∀ p ∈ used, p.1.toNat < 2 ^ 31 ∧ p.2.toNat < 2 ^ 31 := by
  obtain ⟨hlen, hpattern⟩ := setPath_accepts haccepted
  have h128 : defaultPathSize = 128 := rfl
  constructor
  · intro h
    have hname : ∀ p ∈ used, fileName (path ++ fileSuffix) p.1 p.2 =
        some (path ++ (ascii "/" ++ traceFile p.1.toNat p.2.toNat)) := by
      intro p hp
      rw [← hpattern, h.name p hp, List.append_assoc]
    obtain ⟨p₀, hp₀⟩ := hused
    have hpercent : percent ∉ path := (not_percent_of_sprintf 0 path (hname p₀ hp₀)).2
    refine ⟨hpercent, fun p hp => lt_of_printedFile ?_⟩
    have heq := hname p hp
    rw [fileName_eq hpercent] at heq
    exact List.append_cancel_left (List.append_cancel_left (Option.some.inj heq))
  · rintro ⟨hpercent, hlt⟩
    have hname : ∀ p ∈ used, fileName (setPath {} path).2.pattern p.1 p.2 =
        some (path ++ ascii "/" ++ traceFile p.1.toNat p.2.toNat) := by
      intro p hp
      rw [hpattern, fileName_eq hpercent, printedFile_of_lt (hlt p hp).1 (hlt p hp).2,
        List.append_assoc]
    have hrecovered : ∀ p ∈ used, ∀ name, fileName (setPath {} path).2.pattern p.1 p.2 = some name →
        matchTraceFile (baseName name) = some (p.1.toNat, p.2.toNat) := by
      intro p hp name hn
      rw [hname p hp] at hn
      rw [← Option.some.inj hn, baseName_append path (traceFile_no_slash _ _),
        matchTraceFile_traceFile]
    refine ⟨by omega, ?_, hname, ?_, ?_, hrecovered⟩
    · have h22 : fileSuffix.length = 22 := by decide
      rw [hpattern, List.length_append, h22]
      omega
    · intro p hp name hn
      rw [hpattern] at hn ⊢
      exact length_fileName hpercent hn
    · -- the numbers are recovered from the name, so it determines them
      intro p hp q hq heq
      have hrec := hrecovered p hp _ (heq.trans (hname q hq))
      rw [hrecovered q hq _ (hname q hq)] at hrec
      obtain ⟨h1, h2⟩ := Prod.mk.inj (Option.some.inj hrec)
      exact Prod.ext (UInt64.toNat_inj.mp h1.symm) (UInt32.toNat_inj.mp h2.symm)

/-- A path and a number for which the names are right. -/
theorem file_names_plain :
    (setPath {} (ascii "traces")).1 = true ∧ NamesRoundTrip (ascii "traces") {(7, 3)} :=
  ⟨by decide, (file_names_iff (ascii "traces") (by decide) {(7, 3)} ⟨_, rfl⟩).mpr
    ⟨by decide, by rintro p rfl; decide⟩⟩

/-- A thread id of `2 ^ 31` is printed with a minus sign, and of two percent signs
in a path one is printed. -/
theorem file_names_large_tid :
    fileName (setPath {} (ascii "t")).2.pattern 2147483648 0 =
      some (ascii "t/freezer_log_-2147483648_0.bin") ∧
    matchTraceFile (ascii "freezer_log_-2147483648_0.bin") = none ∧
    ¬ NamesRoundTrip (ascii "t") {(2147483648, 0)} ∧
    fileName (setPath {} (ascii "a%%b")).2.pattern 7 3 =
      some (ascii "a%b/freezer_log_7_3.bin") := by
  have hname : fileName (setPath {} (ascii "t")).2.pattern 2147483648 0 =
      some (ascii "t/freezer_log_-2147483648_0.bin") := by decide
  refine ⟨hname, by decide, fun h => ?_, by decide⟩
  have hright := h.name _ rfl
  rw [hname] at hright
  exact absurd hright (by decide)

end Coldtrace
