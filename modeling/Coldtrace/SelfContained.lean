import Mathlib.Data.List.Infix
import Mathlib.Data.List.TakeWhile
import Mathlib.Tactic.Common
import Coldtrace.Lib.Bytes
import Coldtrace.Reader
import Coldtrace.Records
import Coldtrace.Fragments
import Coldtrace.Coherence

/-!
# Fragments are self-contained

Records that apply from the empty stack apply from every stack, and a reader
reports the same entries for them whatever stack it starts with.  The first of
them that carries a stack keeps no frames, so nothing of the initial stack is
left after it.

By coherence every page of a thread is of this kind.  So decoding the fragments
one after the other gives what decoding each of them alone gives.
-/

namespace Coldtrace

open Bytes

/-! ## Records that apply from the empty stack -/

/-- A record without a stack is reported the same on every stack. -/
theorem Record.entry_noStack {r : Record} (h : r.type.hasStack = false) (tid : Nat)
    (s s' : List Nat) : r.entry tid s = r.entry tid s' := by
  simp only [Record.entry, reportedEntry, h, Bool.false_eq_true, if_false]

theorem Record.apply_noStack {r : Record} (h : r.type.hasStack = false) (s : List Nat) :
    r.apply s = some s := by
  rw [Record.apply, h, if_neg Bool.false_ne_true]

/-- A record with a stack that applies to the empty stack keeps no frames. -/
theorem Record.apply_empty {r : Record} {s' : List Nat} (hs : r.type.hasStack = true)
    (h : r.apply [] = some s') : r.popped = 0 ∧ ∀ s, r.apply s = some s' := by
  rw [Record.apply, if_pos hs] at h
  split at h
  next hle =>
    have hzero : r.popped = 0 := Nat.le_zero.mp hle
    refine ⟨hzero, fun s => ?_⟩
    rw [Record.apply, if_pos hs, ← h, hzero, if_pos (Nat.zero_le _), List.take_zero, List.take_zero]
  next => cases h

/-- Records that apply from the empty stack apply from every stack, with the
same entries. -/
theorem chain_from_empty : ∀ {rs : List Record} {stack : List Nat}, Chain [] rs stack →
    ∀ s, ∃ s', Chain s rs s' ∧ ∀ tid, reported tid s rs = reported tid [] rs
  | [], _, _, s => ⟨s, .nil, fun _ => rfl⟩
  | r :: rs, stack, h, s => by
      cases h with
      | @cons _ s₁ _ _ _ happ hrest =>
          by_cases hs : r.type.hasStack = true
          · have hall := (Record.apply_empty hs happ).2
            refine ⟨stack, .cons (hall s) hrest, fun tid => ?_⟩
            simp only [reported, hall s, happ]
          · have hno : r.type.hasStack = false := by simpa using hs
            have hone := Record.apply_noStack hno
            rw [hone, Option.some.injEq] at happ
            subst happ
            obtain ⟨s', hchain, hrep⟩ := chain_from_empty hrest s
            refine ⟨s', .cons (hone s) hchain, fun tid => ?_⟩
            simp only [reported, hone, hrep tid, Record.entry_noStack hno tid s []]

/-- The first record with a stack keeps no frames. -/
theorem first_popped : ∀ {pre : List Record} {r : Record} {post : List Record} {stack : List Nat},
    Chain [] (pre ++ r :: post) stack → (∀ x ∈ pre, x.type.hasStack = false) →
    r.type.hasStack = true → r.popped = 0
  | [], r, post, stack, h, _, hs => by
      cases h with
      | cons happ _ => exact (Record.apply_empty hs happ).1
  | x :: pre, r, post, stack, h, hpre, hs => by
      rw [List.forall_mem_cons] at hpre
      cases h with
      | cons happ hrest =>
          rw [Record.apply_noStack hpre.1, Option.some.injEq] at happ
          subst happ
          exact first_popped hrest hpre.2 hs

theorem Chain.of_append {s s' : List Nat} : ∀ {rs rs' : List Record}, Chain s (rs ++ rs') s' →
    ∃ m, Chain s rs m
  | [], _, _ => ⟨s, .nil⟩
  | r :: rs, rs', h => by
      cases h with
      | cons happ hrest =>
          obtain ⟨m, hm⟩ := Chain.of_append hrest
          exact ⟨m, .cons happ hm⟩

/-! ## Decoding a page -/

/-- The records of a page that a reader reaches: those before an all-zero FREE
record. -/
def readable (rs : List Record) : List Record := rs.takeWhile fun r => !decide r.ZeroFree

theorem readable_not_zeroFree (rs : List Record) : ∀ r ∈ readable rs, ¬ r.ZeroFree := by
  intro r hr
  simpa using List.mem_takeWhile_imp hr

/-- What follows the records a reader reaches looks like a tail. -/
theorem readable_tail (rs : List Record) :
    ∃ rest, rs = readable rs ++ rest ∧ ∀ b ∈ (recordsBytes rest).take 32, b = 0 := by
  refine ⟨rs.dropWhile fun r => !decide r.ZeroFree, List.takeWhile_append_dropWhile.symm, ?_⟩
  cases hrest : rs.dropWhile fun r => !decide r.ZeroFree with
  | nil => simp
  | cons r rest =>
      have hzero : r.ZeroFree := by
        have := List.head?_dropWhile_not (fun r : Record => !decide r.ZeroFree) rs
        rw [hrest] at this
        simpa using this
      have hlen : 32 ≤ r.bytes.length := by
        rw [r.length_bytes, hzero.1]
        exact Nat.le_add_right _ _
      rw [recordsBytes_cons, List.take_append_of_le_length hlen]
      exact fun b hb => hzero.2 b (List.mem_of_mem_take hb)

/-- Decoding a page of records that apply. -/
theorem readBuffer_pageOf (B : Build) (tid : Nat) {rs : List Record} {s s' : List Nat}
    (h : Chain s rs s') :
    (readBuffer tid s (pageOf B rs)).entries = reported tid s (readable rs) ∧
      ∃ s'', (readBuffer tid s (pageOf B rs)).outcome = .finished s'' := by
  obtain ⟨rest, hsplit, htail⟩ := readable_tail rs
  rw [hsplit] at h
  obtain ⟨m, hm⟩ := Chain.of_append h
  have hdrop : (pageOf B rs).drop sizeofVersionHeader =
      recordsBytes (readable rs) ++ recordsBytes rest := by
    rw [pageOf, List.drop_left' B.length_versionHeader, ← recordsBytes_append, ← hsplit]
  rw [readBuffer_of_chain _ hm (readable_not_zeroFree rs) hdrop htail]
  exact ⟨rfl, m, rfl⟩

/-- A page whose records apply from the empty stack is decoded the same from
every stack. -/
theorem readBuffer_any_stack (B : Build) (tid : Nat) {rs : List Record}
    (h : ∃ stack, Chain [] rs stack) (s : List Nat) :
    (readBuffer tid s (pageOf B rs)).entries = (readBuffer tid [] (pageOf B rs)).entries ∧
      ∃ s', (readBuffer tid s (pageOf B rs)).outcome = .finished s' := by
  obtain ⟨stack, hchain⟩ := h
  obtain ⟨rest, hsplit, -⟩ := readable_tail rs
  have hpre : ∃ m, Chain [] (readable rs) m := by
    rw [hsplit] at hchain
    exact Chain.of_append hchain
  obtain ⟨m, hm⟩ := hpre
  obtain ⟨s', hs', -⟩ := chain_from_empty hchain s
  obtain ⟨-, -, hrep⟩ := chain_from_empty hm s
  obtain ⟨hes, hfin⟩ := readBuffer_pageOf B tid hs'
  obtain ⟨hes₀, -⟩ := readBuffer_pageOf B tid hchain
  exact ⟨by rw [hes, hes₀, hrep], hfin⟩

/-! ## Decoding several fragments -/

theorem readFile_of_decompress {r : TraceReader} {B : Build} {s : List Nat} {file page : List UInt8}
    (h : decompress B r.maxFragmentSize file = .ok page) :
    r.readFile B s file = readBuffer r.tid s page := by
  rw [TraceReader.readFile, h]

/-- Decoding fragments one after the other gives the entries each gives alone. -/
theorem entries_eq_flatMap (r : TraceReader) (B : Build) :
    ∀ (files : List (List UInt8)) (s : List Nat),
    (∀ file ∈ files, ∃ rs, (∃ stack, Chain [] rs stack) ∧
      decompress B r.maxFragmentSize file = .ok (pageOf B rs)) →
    ∃ s', r.entries B s files =
      (files.flatMap fun file => (r.readFile B [] file).entries, .finished s')
  | [], s, _ => ⟨s, rfl⟩
  | file :: files, s, h => by
      rw [List.forall_mem_cons] at h
      obtain ⟨⟨rs, hrs, hdec⟩, hrest⟩ := h
      obtain ⟨hes, s₁, hfin⟩ := readBuffer_any_stack B r.tid hrs s
      obtain ⟨s', hentries⟩ := entries_eq_flatMap r B files s₁ hrest
      refine ⟨s', ?_⟩
      rw [TraceReader.entries, readFile_of_decompress hdec, List.flatMap_cons,
        readFile_of_decompress hdec, ← hes]
      generalize readBuffer r.tid s (pageOf B rs) = d at hfin
      obtain ⟨es, off, outcome⟩ := d
      cases hfin
      simp only [hentries]

/-! ## The fragments of a thread -/

/-- The fragments a thread produced since its world was `w`: the pages handed
over, and the page in the buffer. -/
def State.fragments (w : World) (s : State) : List (List UInt8) :=
  s.world.closed.drop w.closed.length ++
    (s.th.writer.buffer.map fun b => b.mem.load 0 s.th.writer.offset).toList

theorem Coherent.fragments {B : Build} {w : World} {s : State} {frags : List (List Record)}
    {cur : Option (List Record)} (h : Coherent B w.closed s frags cur) :
    ∀ page ∈ s.fragments w, ∃ rs, page = pageOf B rs ∧ ∃ stack, Chain [] rs stack := by
  intro page hpage
  rw [State.fragments, h.closed, List.drop_left] at hpage
  rcases List.mem_append.mp hpage with hmem | hmem
  · obtain ⟨rs, hrs, rfl⟩ := List.mem_map.mp hmem
    exact ⟨rs, rfl, h.sound rs hrs⟩
  · cases cur with
    | none =>
        rw [(h.idle rfl).buffer] at hmem
        cases hmem
    | some rs =>
        obtain ⟨b, hb, hload⟩ := (h.current rs rfl).holds
        rw [hb, Option.map_some, Option.toList_some, List.mem_singleton] at hmem
        exact ⟨rs, hmem.trans hload, h.sound_current rfl⟩

/-- Every fragment of a thread is self-contained, for any calls after one
`init`, any configurations and any outcomes of the system calls. -/
theorem fragments_self_contained (B : Build) (tid : Nat) (w : World) (init : Event)
    (hinit : init.op = .init) (evs : List Event) (hops : ∀ ev ∈ evs, ev.op ≠ .init)
    (hframes : ∀ pre, pre <+: evs →
      (run B tid { world := w } (init :: pre)).th.stackSize < 2 ^ 31) :
    let fragments := (run B tid { world := w } (init :: evs)).fragments w
    (∀ page ∈ fragments,
      (∃ rs, page = pageOf B rs ∧ ∀ pre r post, rs = pre ++ r :: post →
        (∀ x ∈ pre, x.type.hasStack = false) → r.type.hasStack = true → r.popped = 0) ∧
      ∀ tid' s₁ s₂, (readBuffer tid' s₁ page).entries = (readBuffer tid' s₂ page).entries ∧
        ∃ s', (readBuffer tid' s₁ page).outcome = .finished s') ∧
    ∀ (r : TraceReader) (s : List Nat) (files : List (List UInt8)),
      (∀ file ∈ files, ∃ page ∈ fragments, decompress B r.maxFragmentSize file = .ok page) →
      ∃ s', r.entries B s files =
        (files.flatMap fun file => (r.entries B [] [file]).1, .finished s') := by
  intro fragments
  have hstart : run B tid { world := w } [init] = ⟨threadInit tid {}, w⟩ := by
    rw [run_cons, run_nil, step, hinit]
  have hall : ∀ page ∈ fragments, ∃ rs, page = pageOf B rs ∧ ∃ stack, Chain [] rs stack := by
    obtain ⟨frags, cur, h, -⟩ := coherent_run tid evs (coherent_init B tid w) hops
      (by rw [← hstart]; exact hframes)
    rw [← hstart, ← run_append] at h
    exact h.fragments
  refine ⟨?_, ?_⟩
  · intro page hpage
    obtain ⟨rs, rfl, stack, hchain⟩ := hall page hpage
    refine ⟨⟨rs, rfl, fun pre r post hrs hpre hs => first_popped (hrs ▸ hchain) hpre hs⟩, ?_⟩
    intro tid' s₁ s₂
    obtain ⟨h₁, hfin⟩ := readBuffer_any_stack B tid' ⟨stack, hchain⟩ s₁
    obtain ⟨h₂, -⟩ := readBuffer_any_stack B tid' ⟨stack, hchain⟩ s₂
    exact ⟨h₁.trans h₂.symm, hfin⟩
  · intro r s files hfiles
    have hdec : ∀ file ∈ files, ∃ rs, (∃ stack, Chain [] rs stack) ∧
        decompress B r.maxFragmentSize file = .ok (pageOf B rs) := by
      intro file hfile
      obtain ⟨page, hpage, hd⟩ := hfiles file hfile
      obtain ⟨rs, rfl, hrs⟩ := hall page hpage
      exact ⟨rs, hrs, hd⟩
    obtain ⟨s', hs'⟩ := entries_eq_flatMap r B files s hdec
    refine ⟨s', hs'.trans ?_⟩
    congr 1
    refine List.flatMap_congr fun file hfile => ?_
    obtain ⟨s₁, hone⟩ := entries_eq_flatMap r B [file] [] (by simpa using hdec file hfile)
    rw [hone, List.flatMap_singleton]

/-- Two writes under one frame, in fragments of 56 bytes: each write is in a
fragment of its own. -/
theorem fragments_self_contained_writes :
    let cfg : Config := { traceSize := 56, writesDisabled := true }
    let write : Event := { cfg, op := .append { type := .write, ptr := 5 } }
    let fragments := (run literalBuild 3 {} [⟨cfg, {}, .init⟩, ⟨cfg, {}, .push 7⟩, write,
      write]).fragments {}
    fragments.length = 2 ∧ ∀ page ∈ fragments, ∀ s₁ s₂,
      (readBuffer 3 s₁ page).entries = (readBuffer 3 s₂ page).entries := by
  intro cfg write fragments
  refine ⟨by decide, fun page hpage s₁ s₂ => ?_⟩
  have h := fragments_self_contained literalBuild 3 {} ⟨cfg, {}, .init⟩ rfl
    [⟨cfg, {}, .push 7⟩, write, write] (by simp [write]) ?_
  · exact ((h.1 page hpage).2 3 s₁ s₂).1
  · intro pre hpre
    rw [← List.mem_inits] at hpre
    revert pre
    decide

end Coldtrace
