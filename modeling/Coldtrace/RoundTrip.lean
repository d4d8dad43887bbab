import Mathlib.Data.List.Sort
import Mathlib.Tactic.Common
import Coldtrace.Lib.Bytes
import Coldtrace.Lib.Lz4
import Coldtrace.Lib.Runs
import Coldtrace.Entries
import Coldtrace.Writer
import Coldtrace.Reserve
import Coldtrace.Thread
import Coldtrace.Stack
import Coldtrace.Reader
import Coldtrace.Records
import Coldtrace.Fragments
import Coldtrace.Appending
import Coldtrace.Coherence
import Coldtrace.SelfContained

/-!
# The round trip of a trace

What a trace of one thread is for: the dumper reports every entry that was
appended, in order, with its fields and with the stack of the thread at that
moment.  `traced` says what is to be reported, from the calls alone.

The proof follows the fragments.  When no call fails, every page is compressed
and written to the file with its number (`Filed`), and the dumper decompresses
each file to its page (`decompress_image`).
-/

namespace Coldtrace

open Bytes Runs

/-! ## What is to be reported -/

/-- The entry to be reported for an append on a stack of frames. -/
def Entry.traced (tid : Nat) (frames : List Nat) (e : Entry) : TraceEntry where
  tid := tid
  type := e.type
  pointer := e.ptr.toNat % 2 ^ 48
  zeroFlag := e.zeroFlag
  size := if e.type.hasSize then some e.fields.size.toNat else none
  allocIndex := if e.type.hasAllocIndex then some e.fields.allocIndex.toNat else none
  atomicIndex := if e.type.hasAtomicIndex then some e.fields.atomicIndex.toNat else none
  caller := if e.type.hasStack then some e.fields.caller.toNat else none
  stackDepth := if e.type.hasStack then frames.length else 0
  caller1 := if e.type.hasStack then topCaller frames else 0
  caller2 := if e.type.hasStack then secondCaller frames else 0
  threadStackPtr := if e.type = .threadStart then some e.fields.threadStackPtr.toNat else none
  threadStackSize := if e.type = .threadStart then some e.fields.threadStackSize.toNat else none

/-- The frames after a call. -/
def Op.frames : Op → List Nat → List Nat
  | .push caller, frames => frames ++ [caller.toNat]
  | .pop, frames => frames.dropLast
  | _, frames => frames

/-- The frames after a sequence of calls. -/
def framesAfter (ops : List Op) : List Nat := ops.foldl (fun frames op => op.frames frames) []

/-- The entries to be reported for a sequence of calls on a stack of frames. -/
def traced (tid : Nat) : List Nat → List Op → List TraceEntry
  | _, [] => []
  | frames, .append e :: ops => e.traced tid frames :: traced tid frames ops
  | frames, op :: ops => traced tid (op.frames frames) ops

/-- The reader reports the entry of a record of the thread as it should. -/
theorem entry_record {th : Thread} (h : th.StackWf) (cfg : Config) {e : Entry} (tid : Nat)
    (hz : e.zeroFlag = true → e.type = .read) (stack : List Nat) :
    (th.record h cfg e).entry tid (th.stackAfter e stack) = e.traced tid th.frames := by
  obtain ⟨type, zero, ptr, fields⟩ := e
  have hzero : type ≠ .read → zero = false := by
    intro hne
    by_contra hz'
    exact hne (hz (by simpa using hz'))
  cases type with
  | read | write | free | alloc | mmap | munmap => rfl
  | testMarker =>
      cases hzero (by decide)
      rfl
  | _ => rfl

/-! ## Calls without a failure -/

theorem compressBound_mono {a b : Nat} (hab : a ≤ b) (hb : b ≤ lz4MaxInputSize) :
    compressBound a ≤ compressBound b := by
  have hmax : lz4MaxInputSize = 0x7E000000 := rfl
  simp only [compressBound]
  rw [Nat.mod_eq_of_lt (by omega), Nat.mod_eq_of_lt (by omega), if_neg (by omega),
    if_neg (by omega)]
  have := Nat.div_le_div_right (c := 255) hab
  omega

section

variable {B : Build} {o : Outcomes} {impl : WriterImpl} {w : World} {cfg : Config}
  {page : List UInt8}

/-- A page that fits its buffer is flushed. -/
theorem flush_ok (hB : B.Lawful) (ho : o.NoFailure) (hpage : impl.Holds page)
    (hsize : impl.size ≤ lz4MaxInputSize) (hle : page.length ≤ impl.size) :
    (flush B o impl w).1 = impl := by
  have hoff := hpage.offset_eq
  obtain ⟨b, hb, -⟩ := hpage
  have hmax : lz4MaxInputSize = 0x7E000000 := rfl
  have hmod : (impl.offset - sizeofVersionHeader) % 2 ^ 32 = impl.offset - sizeofVersionHeader :=
    Nat.mod_eq_of_lt (by omega)
  have hcomp : ∃ block, compressRaw B b.mem (impl.offset - sizeofVersionHeader) impl.size =
      some block := by
    rw [compressRaw, hmod, if_neg (by omega)]
    refine hB.succeeds _ _ (by rw [Mem.length_load]; omega) ?_
    rw [Mem.length_load]
    exact compressBound_mono (by omega) hsize
  obtain ⟨block, hblock⟩ := hcomp
  simp only [flush, hb, ho.compress, if_true, hblock, ho.openTrunc, Bool.not_true,
    Bool.false_eq_true, if_false, writeAll_ok _ _ ho.writes]
  split <;> rfl

/-- A page that fits its buffer does not break the writer. -/
theorem newTrace_ok (cfg : Config) (w : World) (hB : B.Lawful) (ho : o.NoFailure)
    (hpage : impl.Holds page) (hsize : impl.size ≤ lz4MaxInputSize)
    (hle : page.length ≤ impl.size) : ¬ (newTrace B cfg o impl w).1.Broken := by
  intro hbr
  have hnone := hbr.buffer
  have hsome := hpage.isSome
  have hflush := flush_ok (w := w) hB ho hpage hsize hle
  have hadv := (advanceFragment_spec cfg o impl (flush B o impl w).2).isSome
  rw [newTrace] at hnone
  generalize flush B o impl w = result at hflush hadv hnone
  obtain ⟨impl₁, w₁⟩ := result
  cases hflush
  dsimp only at hnone hadv
  rw [if_neg hpage.not_isNone] at hnone
  have hholds := holds_beginFragment B (hadv.trans hsome)
  obtain ⟨b, hb, -⟩ := hholds
  rw [hb] at hnone
  cases hnone

/-- The first buffer of a thread whose directory is empty. -/
theorem ensureBuffer_first (ho : o.NoFailure) (hw : cfg.writesDisabled = false)
    (hv : sizeofVersionHeader ≤ cfg.traceSize) (hmax : cfg.traceSize ≤ lz4MaxInputSize)
    (hi : impl.initd = true) (hf : impl.failed = false) (hb : impl.buffer = none)
    (hd : w.dir.names = []) :
    ∃ impl' w', ensureBuffer B cfg o impl w = (true, impl', w') ∧ impl'.enumerator = 0 ∧
      w'.dir.names = [0] := by
  have hlz4 : lz4MaxInputSize = 0x7E000000 := rfl
  have hptr : ptrdiffMax = 2 ^ 63 - 1 := rfl
  have hhdr : fragHdrSize = 12 := rfl
  have hvalid : validateTraceSize cfg.traceSize (!false) = true := by
    rw [validateTraceSize, if_neg (by omega), if_neg (by simp; omega)]
  have hbound : compressBound cfg.traceSize ≤ 2 ^ 33 := by
    simp only [compressBound]
    split <;> omega
  have halloc : ∀ (w : World) (n : Nat) (source : Source), n ≤ ptrdiffMax →
      w.alloc true n source = some (w.fresh,
        { w with heap := w.heap ++ [⟨w.fresh, source⟩], fresh := w.fresh + 1 }) := by
    intro w n source hn
    simp [World.alloc, hn]
  simp only [ensureBuffer, hi, hf, hb, hw, ho.mmap, ho.malloc, Bool.not_true, Bool.false_eq_true,
    if_false, Option.isSome_none, hvalid]
  rw [halloc _ _ _ (by omega)]
  simp only
  rw [halloc _ _ _ (by omega)]
  simp only
  rw [show (2 : Nat) ^ 32 = 4294967295 + 1 from rfl, firstFragment]
  simp only [ho.openExcl, Bool.not_true, Bool.false_eq_true, if_false, World.called, Dir.has, hd,
    List.not_mem_nil, decide_false]
  exact ⟨_, _, rfl, rfl, by simp [Dir.openEmpty, Dir.put, Dir.has, hd]⟩

end

/-! ## Files -/

theorem length_pageOf (B : Build) (rs : List Record) :
    (pageOf B rs).length = sizeofVersionHeader + (recordsBytes rs).length := by
  rw [pageOf, List.length_append, B.length_versionHeader]

/-- The dumper gets the entries back from a fragment.  The block is not smaller
than its ratio allows, so the size in the header is below the limit. -/
theorem decompress_fragmentImage {B : Build} (hB : B.Lawful) {entries block : List UInt8}
    {cap maxFragmentSize : Nat} (hblock : B.compressFast entries cap = some block)
    (hlen : entries.length ≤ maxFragmentSize) (hmax : entries.length ≤ lz4MaxInputSize) :
    decompress B maxFragmentSize (fragmentImage B entries.length block) =
      .ok (B.versionHeader ++ entries) := by
  have hlz4 : lz4MaxInputSize = 0x7E000000 := rfl
  have hhdr := B.length_versionHeader
  have h8 : sizeofVersionHeader = 8 := rfl
  have h12 : fragHdrSize = 12 := rfl
  have hratio := Lz4.length_decode_le (hB.block _ _ _ hblock)
  rw [fragmentImage]
  generalize hdata : B.versionHeader ++ le 4 entries.length ++ block = data
  have hdlen : data.length = 12 + block.length := by
    rw [← hdata, List.length_append, List.length_append, hhdr, length_le, h8]
  have hversion : unpackFrom versionHeaderLayout data 0 = some [B.gitHash.toNat, 5, 0, 2, 0] := by
    have hdrop : data.drop 0 = pack versionHeaderLayout [B.gitHash.toNat, 5, 0, 2, 0] ++
        (le 4 entries.length ++ block) := by
      rw [List.drop_zero, ← hdata, List.append_assoc]
      rfl
    exact unpackFrom_of_drop hdrop
      ⟨B.gitHash.toNat_lt, by decide, by decide, by decide, by decide, trivial⟩ (Nat.zero_le _)
  have hrest : data.drop sizeofVersionHeader =
      pack blockHeaderLayout [entries.length] ++ block := by
    rw [← hdata, List.append_assoc, List.drop_left' hhdr]
    simp [pack, blockHeaderLayout]
  have hsize : unpackFrom blockHeaderLayout data sizeofVersionHeader = some [entries.length] :=
    unpackFrom_of_drop hrest ⟨by omega, trivial⟩ (by omega)
  have hpayload : data.drop fragHdrSize = block := by
    rw [← hdata]
    exact List.drop_left' (by rw [List.length_append, hhdr, length_le]; rfl)
  have htake : data.take sizeofVersionHeader = B.versionHeader := by
    rw [← hdata, List.append_assoc, List.take_left' hhdr]
  have hversion' : unsupportedVersion 0 2 0 = false := rfl
  rw [decompress, if_neg (by omega), hversion]
  simp only [hversion', Bool.false_eq_true, if_false]
  rw [if_neg (by omega), hsize]
  simp only [hpayload, htake]
  have hlimit : ¬ entries.length > min maxFragmentSize (block.length * lz4MaxRatio) := by
    rw [show lz4MaxRatio = 255 from rfl]
    omega
  rw [if_neg hlimit]
  split
  next hzero => rw [List.eq_nil_of_length_eq_zero hzero, List.append_nil]
  next =>
    rw [hB.inverse _ _ _ hblock]
    simp only [ne_eq, not_true_eq_false, if_false]

/-- The dumper gets the entries of a page back from its file. -/
theorem decompress_page {B : Build} (hB : B.Lawful) {page file : List UInt8} {maxFragmentSize : Nat}
    (h : IsImage B page file) (hlen : page.length - sizeofVersionHeader ≤ maxFragmentSize)
    (hmax : page.length - sizeofVersionHeader ≤ lz4MaxInputSize) :
    decompress B maxFragmentSize file = .ok (B.versionHeader ++ page.drop sizeofVersionHeader) := by
  obtain ⟨block, cap, -, hblock, rfl⟩ := h
  have hlz4 : lz4MaxInputSize = 0x7E000000 := rfl
  rw [Nat.mod_eq_of_lt (by omega), List.take_of_length_le (Nat.le_of_eq List.length_drop)] at hblock
  rw [← List.length_drop] at hlen hmax ⊢
  exact decompress_fragmentImage hB hblock hlen hmax

/-- The dumper gets a page back from its file. -/
theorem decompress_image {B : Build} (hB : B.Lawful) {rs : List Record} {file : List UInt8}
    {maxFragmentSize : Nat} (h : IsImage B (pageOf B rs) file)
    (hlen : (recordsBytes rs).length ≤ maxFragmentSize)
    (hmax : (recordsBytes rs).length ≤ lz4MaxInputSize) :
    decompress B maxFragmentSize file = .ok (pageOf B rs) := by
  have hraw : (pageOf B rs).length - sizeofVersionHeader = (recordsBytes rs).length := by
    rw [length_pageOf, Nat.add_sub_cancel_left]
  rw [decompress_page hB h (by rw [hraw]; exact hlen) (by rw [hraw]; exact hmax), pageOf,
    List.drop_left' B.length_versionHeader]

/-- The limit of the dumper on the size of a fragment rejects no fragment that
`flush_` wrote.  A valid block is not smaller than its ratio allows, so from a
buffer that LZ4 takes the dumper gets the entries back, be they none. -/
theorem fragments_accepted (B : Build) (hB : B.Lawful) :
    (∀ block r, Lz4.decode block = some r → r.length ≤ lz4MaxRatio * block.length) ∧
    ∀ (o : Outcomes) (impl : WriterImpl) (w : World) (page : List UInt8) (tid : Nat),
      impl.Holds page → sizeofVersionHeader ≤ page.length → page.length ≤ lz4MaxInputSize →
      impl.mmapped = true → (flush B o impl w).1.failed = false →
      decompress B ({ tid := tid } : TraceReader).maxFragmentSize
          ((flush B o impl w).2.dir.content impl.enumerator) =
        .ok (B.versionHeader ++ page.drop sizeofVersionHeader) := by
  refine ⟨fun block r => Lz4.length_decode_le, ?_⟩
  intro o impl w page tid hholds _ hle hmmapped hok
  have hraw : page.length - sizeofVersionHeader ≤ lz4MaxInputSize :=
    Nat.le_trans (Nat.sub_le ..) hle
  have hspec := flush_spec B o w hholds
  generalize flush B o impl w = result at hspec hok ⊢
  cases hspec with
  | unwritten hno => cases hmmapped.symm.trans hno
  | broken hbroken => cases hbroken.failed.symm.trans hok
  | written _ himage _ hdir =>
      rw [hdir, content_put, if_pos rfl]
      exact decompress_page hB himage hraw hraw

/-- A fragment with two writes. -/
theorem fragments_accepted_writes :
    let write (ptr : UInt64) : Event :=
      { cfg := { traceSize := 128 }, op := .append { type := .write, ptr } }
    let s := run literalBuild 3 {} [write 5, write 6]
    decompress literalBuild lz4MaxInputSize
        ((flush literalBuild {} s.th.writer s.world).2.dir.content s.th.writer.enumerator) =
      .ok (literalBuild.versionHeader ++ ([3, 0, 5] ++ List.replicate 29 0) ++
        ([3, 0, 6] ++ List.replicate 29 0)) := by
  intro write s
  have hload : (s.th.writer.buffer.map fun b => b.mem.load 0 s.th.writer.offset) =
      some (literalBuild.versionHeader ++ ([3, 0, 5] ++ List.replicate 29 0) ++
        ([3, 0, 6] ++ List.replicate 29 0)) := by
    decide
  have h := (fragments_accepted literalBuild literalBuild_lawful).2 {} s.th.writer s.world _ 3
    (Option.map_eq_some_iff.mp hload) (by decide) (by decide) (by decide) (by decide)
  rwa [List.append_assoc, List.drop_left' literalBuild.length_versionHeader] at h

/-- The buffer of a thread with the records `rs` in it. -/
structure Buffered (B : Build) (cfg : Config) (th : Thread) (rs : List Record) : Prop where
  mmapped : th.writer.mmapped = true
  size : th.writer.size = cfg.traceSize
  page_le : (pageOf B rs).length ≤ cfg.traceSize

/-- The files of a thread are numbered as its fragments are. -/
structure Numbered (B : Build) (s : State) (frags : List (List Record)) : Prop where
  enumerator : s.th.writer.enumerator = frags.length
  /-- The first file is there before it is written. -/
  names : s.world.dir.names = List.range (max 1 frags.length)
  image : ∀ i rs, frags[i]? = some rs → IsImage B (pageOf B rs) (s.world.dir.content i)

/-- The files of a thread in a run without failures, as long as the fragment
numbers do not wrap around. -/
structure Filed (B : Build) (cfg : Config) (s : State) (frags : List (List Record))
    (cur : Option (List Record)) : Prop where
  failed : s.th.failed = false
  pages_le : ∀ rs ∈ frags, (pageOf B rs).length ≤ cfg.traceSize
  start : cur = none → frags = [] ∧ s.world.dir.names = [] ∧ s.th.writer.initd = true ∧
    s.th.writer.failed = false
  buffered : ∀ rs, cur = some rs → Buffered B cfg s.th rs
  numbered : cur.isSome = true → frags.length < cfg.maxFileCount.toNat → Numbered B s frags

section

variable {B : Build} {before : List (List UInt8)} {s : State} {frags : List (List Record)}
  {cur : Option (List Record)} {cfg : Config} {o : Outcomes} {e : Entry} {tid : Nat}

/-- The buffer is there or it is made. -/
theorem Filed.ensured (h : Coherent B before s frags cur) (hfl : Filed B cfg s frags cur)
    (ho : o.NoFailure) (hw : cfg.writesDisabled = false) (hv : sizeofVersionHeader ≤ cfg.traceSize)
    (hmax : cfg.traceSize ≤ lz4MaxInputSize) :
    ∃ impl w, ensureBuffer B cfg o s.th.writer s.world = (true, impl, w) ∧
      Buffered B cfg { s.th with writer := impl } (cur.getD []) ∧
      (frags.length < cfg.maxFileCount.toNat →
        Numbered B ⟨{ s.th with writer := impl }, w⟩ frags) := by
  cases cur with
  | some rs =>
      have hcur := h.current rs rfl
      obtain ⟨hmm, hsize, hle⟩ := hfl.buffered rs rfl
      exact ⟨_, _, ensureBuffer_kept hcur.initd hcur.failed hcur.holds.isSome, ⟨hmm, hsize, hle⟩,
        fun hlt => hfl.numbered rfl hlt⟩
  | none =>
      obtain ⟨rfl, hnames, hi, hf⟩ := hfl.start rfl
      obtain ⟨impl, w, hens, hen, hdir⟩ := ensureBuffer_first (B := B) ho hw hv hmax hi hf
        (h.idle rfl).buffer hnames
      have hspec := ensureBuffer_spec B cfg o s.th.writer s.world
      rw [hens] at hspec
      refine ⟨impl, w, hens, ?_, fun _ => ⟨hen, hdir, by simp⟩⟩
      cases hspec with
      | kept _ _ hsome =>
          rw [(h.idle rfl).buffer] at hsome
          cases hsome
      | fresh _ _ _ hfresh _ _ =>
          refine ⟨by rw [← Bool.not_false, ← hw]; exact hfresh.mmapped, hfresh.size, ?_⟩
          rw [length_pageOf]
          exact hv

/-- The names of the files after the next one is written. -/
theorem names_openEmpty {d : Dir} {k : Nat} (h : d.names = List.range (max 1 k)) :
    (d.openEmpty k).names = List.range (max 1 (k + 1)) := by
  rw [Dir.openEmpty, Dir.put, Dir.has, h]
  dsimp only
  rcases Nat.eq_zero_or_pos k with rfl | hk
  · rfl
  · rw [Nat.max_eq_right hk, Nat.max_eq_right (by omega), if_neg (by simp), List.range_succ]

/-- Writing the file of a page. -/
theorem image_openEmpty {d : Dir} {rs : List Record} {file : List UInt8}
    (h : ∀ i rs, frags[i]? = some rs → IsImage B (pageOf B rs) (d.content i))
    (hfile : IsImage B (pageOf B rs) file) :
    ∀ i rs', (frags ++ [rs])[i]? = some rs' →
      IsImage B (pageOf B rs') (((d.openEmpty frags.length).put frags.length file).content i) := by
  intro i rs' hi
  rw [content_put, content_openEmpty]
  rcases Nat.lt_trichotomy i frags.length with hlt | rfl | hgt
  · rw [List.getElem?_append_left hlt] at hi
    rw [if_neg (by omega), if_neg (by omega)]
    exact h i rs' hi
  · rw [List.getElem?_append_right (Nat.le_refl _), Nat.sub_self] at hi
    cases hi
    rw [if_pos rfl]
    exact hfile
  · rw [List.getElem?_eq_none (by rw [List.length_append, List.length_singleton]; omega)] at hi
    cases hi

/-- A record takes at most its fixed part and the whole stack. -/
theorem length_record_le_full {th : Thread} (h : th.StackWf) (cfg : Config) (e : Entry) :
    (th.record h cfg e).bytes.length ≤
      e.type.space + if e.type.hasStack then 8 * th.frames.length else 0 := by
  rw [Thread.record, Entry.length_record]
  split <;> omega

theorem length_pageOf_append (B : Build) (rs : List Record) (r : Record) :
    (pageOf B (rs ++ [r])).length = (pageOf B rs).length + r.bytes.length := by
  rw [length_pageOf, length_pageOf, recordsBytes_append, List.length_append, recordsBytes_cons,
    recordsBytes_nil, List.append_nil, Nat.add_assoc]

/-- An append in a run without failures adds its record to the current page or
to a new one. -/
theorem Filed.append (tid : Nat) (hB : B.Lawful) (h : Coherent B before s frags cur)
    (hfl : Filed B cfg s frags cur) (ho : o.NoFailure) (hw : cfg.writesDisabled = false)
    (hmax : cfg.traceSize ≤ lz4MaxInputSize)
    (hfit : sizeofVersionHeader + (e.type.space +
      if e.type.hasStack then 8 * s.th.frames.length else 0) ≤ cfg.traceSize) :
    ∃ frags' rs, Coherent B before (subscriberAppend B tid cfg o s e) frags'
        (some (rs ++ [s.th.record h.stack cfg e])) ∧
      Filed B cfg (subscriberAppend B tid cfg o s e) frags'
        (some (rs ++ [s.th.record h.stack cfg e])) ∧
      (frags' = frags ∧ rs = cur.getD [] ∨ frags' = frags ++ [cur.getD []] ∧ rs = []) ∧
      (∃ stack, Chain [] rs stack ∧
        (s.th.record h.stack cfg e).apply stack = some (s.th.stackAfter e stack)) ∧
      (subscriberAppend B tid cfg o s e).th.frames = s.th.frames := by
  have hlen := length_record_le_full h.stack cfg e
  have hlz4 : lz4MaxInputSize = 0x7E000000 := rfl
  rw [subscriberAppend_eq B tid cfg o h.initd hfl.failed h.stack e]
  obtain ⟨impl, w, hens, ⟨hmm, hsize, hpage⟩, hnum⟩ := hfl.ensured h ho hw (by omega) hmax
  obtain ⟨h₁, hbot, hkept⟩ := h.ensured hens
  have hholds : impl.Holds (pageOf B (cur.getD [])) := (h₁.current _ rfl).holds
  rcases writerReserve_spec B cfg o s.th.writer s.world
    (s.th.record h.stack cfg e).bytes.length with ⟨_, _, hno, -⟩ | ⟨_, _, hens', hres⟩
  · rw [hens] at hno
    cases hno
  · rw [hens] at hens'
    cases hens'
    have hplaced := hres _ hholds
    generalize writerReserve B cfg o s.th.writer s.world _ = result at hplaced
    dsimp only at hmm hsize
    cases hplaced with
    | inPage hn =>
        obtain ⟨stack, hchain, ha⟩ := (h₁.current _ rfl).agrees
        refine ⟨frags, cur.getD [], h.inPage h₁ hn, ⟨hfl.failed, hfl.pages_le,
          fun hn => (by cases hn), ?_, fun _ hlt => ⟨(hnum hlt).enumerator, (hnum hlt).names,
          (hnum hlt).image⟩⟩, .inl ⟨rfl, rfl⟩, ?_, rfl⟩
        · intro rs hr
          cases hr
          refine ⟨hmm, hsize, ?_⟩
          rw [length_pageOf_append]
          simp only [writerNewTrace, decide_eq_false_iff_not, Nat.not_lt, hsize, Nat.lt_irrefl,
            if_false, hholds.offset_eq] at hn
          rwa [Nat.mod_eq_of_lt (by omega)] at hn
        · exact ⟨stack, hchain, Agrees.apply h.stack (Agrees.base ha)⟩
    | rolled hn hr =>
        have hopens : s.th.opensFragment cfg e = true ∨ s.th.stackBottom = 0 := by
          cases cur with
          | none => exact .inr (hbot rfl)
          | some rs => exact .inl (opensFragment_of_newTrace h.stack (hkept rs rfl ▸ hn))
        refine ⟨frags ++ [cur.getD []], [], h.rolled h₁ hr hopens, ⟨hfl.failed, ?_,
          fun hn => (by cases hn), ?_, ?_⟩, .inr ⟨rfl, rfl⟩,
          ⟨[], .nil, Agrees.apply h.stack (Agrees.of_fresh _ hopens).1⟩, rfl⟩
        · intro rs hrs
          rcases List.mem_append.mp hrs with hmem | hmem
          · exact hfl.pages_le rs hmem
          · rw [List.mem_singleton.mp hmem]
            exact hpage
        · intro rs hrs
          cases hrs
          refine ⟨hr.mmapped.trans hmm, ?_, ?_⟩
          · rcases hr.size with heq | ⟨hno, -⟩
            · exact heq.trans hsize
            · rw [hmm] at hno
              cases hno
          · rw [length_pageOf_append, length_pageOf]
            change sizeofVersionHeader + 0 + _ ≤ _
            omega
        · intro _ hlt
          rw [List.length_append, List.length_singleton] at hlt
          obtain ⟨hen, hnames, himage⟩ := hnum (by omega)
          dsimp only at hen hnames himage
          rcases hr.dir with ⟨hno, -⟩ | ⟨-, file, hfile, hdir⟩
          · rw [hmm] at hno
            cases hno
          have hmod := cfg.maxFileCount.toNat_lt
          refine ⟨?_, ?_, ?_⟩
          · rw [List.length_append, List.length_singleton]
            refine (hr.enumerator hmm).trans ?_
            rw [hen, Nat.mod_eq_of_lt (by omega : frags.length + 1 < 2 ^ 32), Nat.mod_eq_of_lt hlt]
          · rw [List.length_append, List.length_singleton, hdir, hen]
            exact names_openEmpty hnames
          · rw [hdir, hen]
            exact image_openEmpty himage hfile
    | broken hn hnt hbr _ _ =>
        have hok := newTrace_ok cfg w hB ho hholds (by omega) (by omega)
        rw [hnt] at hok
        exact absurd hbr hok

/-! ## Runs without failures -/

/-- A FREE record with a caller is not all zero. -/
theorem record_not_zeroFree {th : Thread} (h : th.StackWf)
    (hfree : e.type = .free → e.fields.caller ≠ 0) : ¬ (th.record h cfg e).ZeroFree := by
  rintro ⟨htype, hzero⟩
  have htype : e.type = .free := htype
  rw [Record.bytes, List.append_assoc, Record.body_eq, List.forall_mem_append,
    List.forall_mem_append] at hzero
  have hnum := (pack_eq_zero (th.record h cfg e).fits_numbers).mp hzero.2.1
  have hmem : e.fields.caller.toNat ∈ (th.record h cfg e).numbers := by
    refine List.mem_append_left _ ?_
    change _ ∈ e.fields.words e.type
    rw [htype]
    simp [Fields.words]
  exact hfree htype (UInt64.toNat_inj.mp (hnum _ hmem))

/-- The invariant of a run without failures: the records in the files and in
the buffer say what is to be reported so far. -/
structure Tracing (B : Build) (cfg : Config) (tid : Nat) (before : List (List UInt8)) (s : State)
    (frames : List Nat) (done : List TraceEntry) (frags : List (List Record))
    (cur : Option (List Record)) : Prop where
  coherent : Coherent B before s frags cur
  filed : Filed B cfg s frags cur
  frames_eq : s.th.frames = frames
  log : (frags ++ cur.toList).flatMap (reported tid []) = done
  noZero : ∀ rs ∈ frags ++ cur.toList, ∀ r ∈ rs, ¬ r.ZeroFree

/-- What the round trip asks of an appended entry, on a stack of frames. -/
structure Entry.Traceable (cfg : Config) (frames : List Nat) (e : Entry) : Prop where
  fits : sizeofVersionHeader + (e.type.space +
    if e.type.hasStack then 8 * frames.length else 0) ≤ cfg.traceSize
  zeroFlag : e.zeroFlag = true → e.type = .read
  caller : e.type = .free → e.fields.caller ≠ 0

/-- The log after a record is added to the current page or to a new one. -/
theorem reported_add {rs : List Record} {frags' : List (List Record)} {r : Record}
    {stack stack' : List Nat} (hchain : Chain [] rs stack) (happ : r.apply stack = some stack')
    (hcase : frags' = frags ∧ rs = cur.getD [] ∨ frags' = frags ++ [cur.getD []] ∧ rs = []) :
    (frags' ++ (some (rs ++ [r])).toList).flatMap (reported tid []) =
      (frags ++ cur.toList).flatMap (reported tid []) ++ [r.entry tid stack'] := by
  have hcur : cur.toList.flatMap (reported tid []) = reported tid [] (cur.getD []) := by
    cases cur <;> simp [reported]
  have hadd : reported tid [] (rs ++ [r]) = reported tid [] rs ++ [r.entry tid stack'] := by
    rw [hchain.reported_append]
    simp [reported, happ]
  rw [Option.toList_some, List.flatMap_append, List.flatMap_append, List.flatMap_singleton, hadd,
    hcur]
  rcases hcase with ⟨rfl, rfl⟩ | ⟨rfl, rfl⟩
  · rw [List.append_assoc]
  · rw [List.flatMap_append, List.flatMap_singleton]
    simp [reported]

theorem noZero_add {rs : List Record} {frags' : List (List Record)} {r : Record}
    (h : ∀ rs ∈ frags ++ cur.toList, ∀ r ∈ rs, ¬ r.ZeroFree) (hr : ¬ r.ZeroFree)
    (hcase : frags' = frags ∧ rs = cur.getD [] ∨ frags' = frags ++ [cur.getD []] ∧ rs = []) :
    ∀ rs' ∈ frags' ++ (some (rs ++ [r])).toList, ∀ r' ∈ rs', ¬ r'.ZeroFree := by
  have hcur : ∀ r ∈ cur.getD [], ¬ r.ZeroFree := by
    cases cur with
    | none => simp
    | some rs => exact h rs (by simp)
  have hfrags : ∀ rs ∈ frags, ∀ r ∈ rs, ¬ r.ZeroFree :=
    fun rs hrs => h rs (List.mem_append_left _ hrs)
  intro rs' hrs' r' hr'
  rcases hcase with ⟨rfl, rfl⟩ | ⟨rfl, rfl⟩
  · rcases List.mem_append.mp hrs' with hmem | hmem
    · exact hfrags rs' hmem r' hr'
    · rw [Option.toList_some, List.mem_singleton] at hmem
      subst hmem
      rcases List.mem_append.mp hr' with hmem | hmem
      · exact hcur r' hmem
      · exact List.mem_singleton.mp hmem ▸ hr
  · rcases List.mem_append.mp hrs' with hmem | hmem
    · rcases List.mem_append.mp hmem with hmem | hmem
      · exact hfrags rs' hmem r' hr'
      · exact hcur r' (List.mem_singleton.mp hmem ▸ hr')
    · rw [Option.toList_some, List.mem_singleton] at hmem
      subst hmem
      exact List.mem_singleton.mp hr' ▸ hr

/-- What the round trip asks of a call, on a stack of frames. -/
structure Op.Traceable (cfg : Config) (frames : List Nat) (op : Op) : Prop where
  ne_init : op ≠ .init
  ne_fini : op ≠ .fini
  small : (op.frames frames).length < 2 ^ 31
  entry : ∀ e, op = .append e → e.Traceable cfg frames

theorem traced_cons (tid : Nat) (frames : List Nat) (op : Op) (ops : List Op) :
    traced tid frames (op :: ops) = traced tid frames [op] ++ traced tid
      (op.frames frames) ops := by
  cases op <;> rfl

theorem Filed.of_writer (h : Filed B cfg s frags cur) {th : Thread} (hf : th.failed = false)
    (hw : th.writer = s.th.writer) : Filed B cfg ⟨th, s.world⟩ frags cur where
  failed := hf
  pages_le := h.pages_le
  start hn := by
    obtain ⟨hfr, hd, hi, hf'⟩ := h.start hn
    exact ⟨hfr, hd, hw ▸ hi, hw ▸ hf'⟩
  buffered rs hr := by
    obtain ⟨hmm, hs, hle⟩ := h.buffered rs hr
    exact ⟨hw ▸ hmm, hw ▸ hs, hle⟩
  numbered hs hlt := by
    obtain ⟨hen, hn, himage⟩ := h.numbered hs hlt
    exact ⟨hw ▸ hen, hn, himage⟩

/-- One call of a run without failures. -/
theorem Tracing.step {frames : List Nat} {done : List TraceEntry} (hB : B.Lawful)
    (h : Tracing B cfg tid before s frames done frags cur) (hw : cfg.writesDisabled = false)
    (hmax : cfg.traceSize ≤ lz4MaxInputSize) (ho : o.NoFailure) {op : Op}
    (hop : op.Traceable cfg frames) :
    ∃ frags' cur', Tracing B cfg tid before (step B tid s ⟨cfg, o, op⟩) (op.frames frames)
      (done ++ traced tid frames [op]) frags' cur' := by
  obtain ⟨hco, hfl, hfr, hlog, hnz⟩ := h
  cases op with
  | init => exact absurd rfl hop.ne_init
  | fini => exact absurd rfl hop.ne_fini
  | push caller =>
      have hp := threadStackPush_spec tid o hco.initd hco.stack caller
      have hpushed := hp
      cases hpushed with
      | refused hf _ =>
          rw [hfl.failed] at hf
          cases hf
      | failed _ hr _ =>
          rw [ho.realloc] at hr
          cases hr
      | added _ hf' hwr _ _ hframes hsize _ _ =>
          have hsmall : (frames ++ [caller.toNat]).length < 2 ^ 31 := hop.small
          rw [List.length_append, ← hfr, hco.stack.length_frames, List.length_singleton,
            ← hsize] at hsmall
          refine ⟨frags, cur, hco.move (hp.move hco.stack) (hp.stackWf hco.stack hsmall),
            hfl.of_writer hf' hwr, ?_, ?_, hnz⟩
          · rw [← hfr]
            exact hframes
          · rw [hlog, traced, traced, List.append_nil]
            · exact fun _ h => Op.noConfusion h
  | pop =>
      obtain ⟨hwf, hm, hf⟩ := threadStackPop_spec tid hco.initd hco.stack
      refine ⟨frags, cur, hco.move hm hwf, hfl.of_writer (hf.trans hfl.failed) hm.writer, ?_, ?_,
        hnz⟩
      · rw [← hfr]
        exact threadStackPop_frames tid hco.initd hfl.failed hco.stack
      · rw [hlog, traced, traced, List.append_nil]
        · exact fun _ h => Op.noConfusion h
  | append e =>
      obtain ⟨hfit, hzf, hcaller⟩ := hop.entry e rfl
      rw [← hfr] at hfit
      obtain ⟨frags', rs, hco', hfl', hcase, ⟨stack, hchain, happ⟩, hframes⟩ :=
        hfl.append tid hB hco ho hw hmax hfit
      refine ⟨frags', _, hco', hfl', hframes.trans hfr, ?_,
        noZero_add hnz (record_not_zeroFree hco.stack hcaller) hcase⟩
      rw [reported_add hchain happ hcase, hlog, entry_record hco.stack cfg tid hzf, hfr]
      rfl

/-- The frames after a sequence of calls on a stack of frames. -/
theorem framesAfter_append (pre ops : List Op) :
    framesAfter (pre ++ ops) = ops.foldl (fun frames op => op.frames frames) (framesAfter pre) :=
  List.foldl_append ..

/-- A run of calls without failures. -/
theorem tracing_run (hB : B.Lawful) (hw : cfg.writesDisabled = false)
    (hmax : cfg.traceSize ≤ lz4MaxInputSize) : ∀ {evs : List Event} {frames : List Nat} {s : State}
    {done : List TraceEntry} {frags : List (List Record)} {cur : Option (List Record)},
    Tracing B cfg tid before s frames done frags cur →
    (∀ ev ∈ evs, ev.cfg = cfg ∧ ev.o.NoFailure) →
    Along (fun frames op => op.frames frames) (fun frames op => op.Traceable cfg frames) frames
      (evs.map Event.op) →
    ∃ frags' cur', Tracing B cfg tid before (run B tid s evs)
      ((evs.map Event.op).foldl (fun frames op => op.frames frames) frames)
      (done ++ traced tid frames (evs.map Event.op)) frags' cur'
  | [], frames, s, done, frags, cur, h, _, _ => by
      refine ⟨frags, cur, ?_⟩
      simpa [traced] using h
  | ⟨cfg', o, op⟩ :: evs, frames, s, done, frags, cur, h, hev, hops => by
      rw [List.forall_mem_cons] at hev
      rw [List.map_cons, along_cons] at hops
      obtain ⟨⟨hcfg, ho⟩, hev⟩ := hev
      replace hcfg := hcfg.symm
      subst hcfg
      obtain ⟨frags₁, cur₁, h₁⟩ := h.step hB hw hmax ho hops.1
      obtain ⟨frags', cur', h'⟩ := tracing_run hB hw hmax h₁ hev hops.2
      refine ⟨frags', cur', ?_⟩
      rw [run_cons, List.map_cons, traced_cons, ← List.append_assoc]
      exact h'

/-! ## The files at the end -/

/-- `coldtrace_thread_fini` writes the last fragment. -/
theorem Filed.fini (tid : Nat) (hB : B.Lawful) (h : Coherent B before s frags cur)
    (hfl : Filed B cfg s frags cur) (ho : o.NoFailure) (hmax : cfg.traceSize ≤ lz4MaxInputSize)
    (hlt : (frags ++ cur.toList).length < cfg.maxFileCount.toNat) :
    (threadFini B tid o s.th s.world).2.dir.names = List.range (frags ++ cur.toList).length ∧
      ∀ i rs, (frags ++ cur.toList)[i]? = some rs →
        IsImage B (pageOf B rs) ((threadFini B tid o s.th s.world).2.dir.content i) := by
  have hworld : (threadFini B tid o s.th s.world).2 = (writerFini B o s.th.writer s.world).2 := by
    rw [threadFini, getColdtraceThread_of_initd h.initd]
  rw [hworld]
  cases cur with
  | none =>
      obtain ⟨rfl, hnames, hi, -⟩ := hfl.start rfl
      have hdir : (writerFini B o s.th.writer s.world).2.dir = s.world.dir := by
        rw [writerFini, if_neg (by simp [hi]), (h.idle rfl).buffer]
        exact (releaseBuffers_spec ..).2.2.2
      rw [hdir]
      exact ⟨hnames, by simp⟩
  | some rs =>
      obtain ⟨hmm, hsize, hle⟩ := hfl.buffered rs rfl
      have hcur := h.current rs rfl
      rw [Option.toList_some] at hlt ⊢
      rw [List.length_append, List.length_singleton] at hlt ⊢
      obtain ⟨hen, hnames, himage⟩ := hfl.numbered rfl (by omega)
      have hflush := flush_spec B o s.world hcur.holds
      have hok := flush_ok (w := s.world) hB ho hcur.holds (by omega) (by omega)
      have hdir : (writerFini B o s.th.writer s.world).2.dir =
          (flush B o s.th.writer s.world).2.dir := by
        rw [writerFini, if_neg (by simp [hcur.initd]), if_pos hcur.holds.isSome]
        exact (releaseBuffers_spec ..).2.2.2
      rw [hdir]
      generalize flush B o s.th.writer s.world = result at hflush hok
      cases hflush with
      | unwritten hno _ _ =>
          rw [hmm] at hno
          cases hno
      | written _ hfile _ hd =>
          dsimp only
          rw [hd, hen]
          refine ⟨?_, image_openEmpty himage hfile⟩
          exact (names_openEmpty hnames).trans (by rw [Nat.max_eq_right (by omega)])
      | broken hbr _ _ _ =>
          have hbuf := hbr.buffer
          have hsome := hcur.holds.isSome
          dsimp only at hok
          rw [← hok, hbuf] at hsome
          cases hsome

/-- The files in the order of their numbers. -/
theorem discoverTraceFiles_range {d : Dir} {n : Nat} (h : d.names = List.range n) :
    discoverTraceFiles d = (List.range n).map d.content := by
  rw [discoverTraceFiles, h, List.mergeSort_eq_self]
  exact (List.pairwise_lt_range).imp Nat.le_of_lt

/-- A page without an all-zero FREE record is decoded to all its entries. -/
theorem readable_eq_self {rs : List Record} (h : ∀ r ∈ rs, ¬ r.ZeroFree) : readable rs = rs := by
  rw [readable, List.takeWhile_eq_self_iff]
  intro r hr
  simpa using h r hr

/-- The entries of a list of files that are the images of pages. -/
theorem flatMap_readFile (hB : B.Lawful) (r : TraceReader) {d : Dir} {all : List (List Record)}
    (himage : ∀ i rs, all[i]? = some rs → IsImage B (pageOf B rs) (d.content i))
    (hsound : ∀ rs ∈ all, ∃ stack, Chain [] rs stack)
    (hzero : ∀ rs ∈ all, ∀ x ∈ rs, ¬ x.ZeroFree)
    (hlen : ∀ rs ∈ all, (recordsBytes rs).length ≤ lz4MaxInputSize)
    (hr : r.maxFragmentSize = lz4MaxInputSize) :
    (∀ file ∈ (List.range all.length).map d.content, ∃ rs, (∃ stack, Chain [] rs stack) ∧
      decompress B r.maxFragmentSize file = .ok (pageOf B rs)) ∧
    (((List.range all.length).map d.content).flatMap fun file => (r.readFile B [] file).entries) =
      all.flatMap (reported r.tid []) := by
  have hdec : ∀ i rs, all[i]? = some rs →
      decompress B r.maxFragmentSize (d.content i) = .ok (pageOf B rs) := by
    intro i rs hi
    have hle := hlen rs (List.mem_of_getElem? hi)
    exact decompress_image hB (himage i rs hi) (hr ▸ hle) hle
  constructor
  · intro file hfile
    obtain ⟨i, hi, rfl⟩ := List.mem_map.mp hfile
    have hget := List.getElem?_eq_getElem (List.mem_range.mp hi)
    exact ⟨_, hsound _ (List.mem_of_getElem? hget), hdec i _ hget⟩
  · have hmap : (List.range all.length).map (fun i => (r.readFile B [] (d.content i)).entries) =
        all.map (reported r.tid []) := by
      apply List.ext_getElem?
      intro i
      rw [List.getElem?_map, List.getElem?_map]
      rcases Nat.lt_or_ge i all.length with hi | hi
      · have hget := List.getElem?_eq_getElem hi
        have hmem := List.mem_of_getElem? hget
        obtain ⟨stack, hchain⟩ := hsound _ hmem
        rw [List.getElem?_range hi, hget, Option.map_some, Option.map_some,
          readFile_of_decompress (hdec i _ hget), (readBuffer_pageOf B r.tid hchain).1,
          readable_eq_self (hzero _ hmem)]
      · rw [List.getElem?_eq_none (by simpa using hi), List.getElem?_eq_none hi, Option.map_none,
          Option.map_none]
    rw [List.flatMap_def, List.flatMap_def, List.map_map, ← hmap]
    rfl

end

/-- The round trip: the dumper reports every entry appended, in order. -/
theorem round_trip (B : Build) (hB : B.Lawful) (tid : Nat) (cfg : Config)
    (hw : cfg.writesDisabled = false) (hmax : cfg.traceSize ≤ lz4MaxInputSize) (w : World)
    (hdir : w.dir.names = []) (o₀ o₁ : Outcomes) (ho : o₁.NoFailure) (evs : List Event)
    (hev : ∀ ev ∈ evs, ev.cfg = cfg ∧ ev.o.NoFailure)
    (hops : ∀ pre op post, evs.map Event.op = pre ++ op :: post →
      op.Traceable cfg (framesAfter pre))
    (hfrags : (run B tid { world := w }
        (⟨cfg, o₀, .init⟩ :: evs ++ [⟨cfg, o₁, .fini⟩])).world.closed.length - w.closed.length <
      cfg.maxFileCount.toNat) :
    ∃ stack, ({ tid } : TraceReader).entries B [] (discoverTraceFiles
        (run B tid { world := w } (⟨cfg, o₀, .init⟩ :: evs ++ [⟨cfg, o₁, .fini⟩])).world.dir) =
      (traced tid [] (evs.map Event.op), .finished stack) := by
  have hstart : Tracing B cfg tid w.closed ⟨threadInit tid {}, w⟩ (framesAfter []) [] [] none :=
    ⟨coherent_init B tid w,
      ⟨rfl, by simp, fun _ => ⟨rfl, hdir, rfl, rfl⟩, fun _ hn => (nomatch hn),
        fun hn => (nomatch hn)⟩, rfl, rfl, by simp⟩
  obtain ⟨frags, cur, hco, hfl, -, hlog, hzero⟩ := tracing_run hB hw hmax hstart hev hops
  have hrun : run B tid { world := w } (⟨cfg, o₀, .init⟩ :: evs ++ [⟨cfg, o₁, .fini⟩]) =
      ⟨(threadFini B tid o₁ (run B tid ⟨threadInit tid {}, w⟩ evs).th
          (run B tid ⟨threadInit tid {}, w⟩ evs).world).1,
        (threadFini B tid o₁ (run B tid ⟨threadInit tid {}, w⟩ evs).th
          (run B tid ⟨threadInit tid {}, w⟩ evs).world).2⟩ := by
    rw [List.cons_append, run_cons, run_append]
    rfl
  rw [hrun] at hfrags ⊢
  generalize run B tid ⟨threadInit tid {}, w⟩ evs = s at hco hfl hfrags
  have hclosed := (hco.fini tid o₁).closed
  have hsound := (hco.fini tid o₁).sound
  dsimp only at hfrags hclosed ⊢
  rw [hclosed, List.length_append, List.length_map, Nat.add_sub_cancel_left] at hfrags
  obtain ⟨hnames, himage⟩ := hfl.fini tid hB hco ho hmax hfrags
  have hpages : ∀ rs ∈ frags ++ cur.toList, (recordsBytes rs).length ≤ lz4MaxInputSize := by
    intro rs hrs
    have hle : (pageOf B rs).length ≤ cfg.traceSize := by
      rcases List.mem_append.mp hrs with hmem | hmem
      · exact hfl.pages_le rs hmem
      · exact (hfl.buffered rs (Option.mem_toList.mp hmem)).page_le
    rw [length_pageOf] at hle
    omega
  rw [discoverTraceFiles_range hnames]
  obtain ⟨hdec, hentries⟩ := flatMap_readFile hB { tid } himage hsound hzero hpages rfl
  obtain ⟨stack, hstack⟩ := entries_eq_flatMap { tid } B _ [] hdec
  refine ⟨stack, hstack.trans ?_⟩
  rw [hentries, hlog]
  rfl

/-- A push and a write, in a trace of 64 bytes. -/
theorem round_trip_write :
    let cfg : Config := { traceSize := 64 }
    let e : Entry := { type := .write, ptr := 0x1234, fields := { size := 4, caller := 9 } }
    ∃ stack, ({ tid := 3 } : TraceReader).entries literalBuild [] (discoverTraceFiles
        (run literalBuild 3 {} (⟨cfg, {}, .init⟩ :: [⟨cfg, {}, .push 7⟩, ⟨cfg, {}, .append e⟩] ++
          [⟨cfg, {}, .fini⟩])).world.dir) =
      ([{ tid := 3, type := .write, pointer := 0x1234, size := some 4, caller := some 9,
          stackDepth := 1, caller1 := 7 }], .finished stack) := by
  have hno : ({} : Outcomes).NoFailure :=
    ⟨rfl, rfl, rfl, rfl, fun _ => rfl, rfl, rfl, by decide, rfl⟩
  refine round_trip literalBuild literalBuild_lawful 3 { traceSize := 64 } rfl (by decide) {} rfl
    {} {} hno [_, _] ?_ ?_ ?_
  · simp [hno]
  · intro pre op post h
    rcases pre with _ | ⟨_, _ | ⟨_, pre⟩⟩
    · cases h
      exact ⟨by decide, by decide, by decide, fun e he => nomatch he⟩
    · cases h
      refine ⟨by decide, by decide, by decide, fun e he => ?_⟩
      cases he
      exact ⟨by decide, by decide, by decide⟩
    · simp at h
  · decide

end Coldtrace
