import Mathlib.Tactic.Common
import Coldtrace.Lib.Bytes
import Coldtrace.Lib.Runs
import Coldtrace.Entries
import Coldtrace.Writer
import Coldtrace.Reserve
import Coldtrace.Thread
import Coldtrace.Coherence

/-!
# Reservations and the bounds of the buffer

`coldtrace_writer_reserve` tests whether a block fits before it goes to a new
fragment, and does not test again.  A block that opens a fragment is placed at
the start of an empty page, so it stays inside the buffer exactly when the
version header and the block fit the trace size (`Roomy`).  Nothing ensures
that: the stack of the thread is sent as a whole at that moment.

`reservations_inside_iff` says this for whole runs, with any outcomes of the
system calls and any depth of the stack.
-/

namespace Coldtrace

open Bytes Runs

/-! ## Reservations -/

/-- A block the writer reserves opens a fragment only if it fits an empty
one. -/
def Roomy (cfg : Config) (impl : WriterImpl) (size : Nat) : Prop :=
  impl.buffer = none ∨ writerNewTrace cfg impl size = true →
    sizeofVersionHeader + size ≤ cfg.traceSize

/-- The offset of a writer with a buffer is in the buffer. -/
structure WriterImpl.Bounded (cfg : Config) (impl : WriterImpl) : Prop where
  size : impl.size = cfg.traceSize
  size_le : cfg.traceSize ≤ ptrdiffMax
  header_le : sizeofVersionHeader ≤ impl.offset
  offset_le : impl.offset ≤ impl.size

section

variable {B : Build} {cfg : Config} {o : Outcomes} {impl : WriterImpl} {w : World} {size : Nat}

/-- A writer at the start of a fragment. -/
theorem WriterImpl.Bounded.of_header (hholds : impl.Holds B.versionHeader)
    (hsize : impl.size = cfg.traceSize) (hle : cfg.traceSize ≤ ptrdiffMax)
    (hv : sizeofVersionHeader ≤ cfg.traceSize) : impl.Bounded cfg := by
  have hoff := hholds.offset_eq
  rw [B.length_versionHeader] at hoff
  exact ⟨hsize, hle, by omega, by omega⟩

theorem reserved_bounded (h : impl.Bounded cfg) (hfit : impl.offset + size ≤ cfg.traceSize) :
    (impl.reserved size).Bounded cfg := by
  obtain ⟨hsize, hle, h8, hoff⟩ := h
  have hmax : ptrdiffMax = 2 ^ 63 - 1 := rfl
  refine ⟨hsize, hle, ?_, ?_⟩
  · change _ ≤ (impl.offset + size) % 2 ^ 64
    rw [Nat.mod_eq_of_lt (by omega)]
    omega
  · change (impl.offset + size) % 2 ^ 64 ≤ impl.size
    rw [Nat.mod_eq_of_lt (by omega)]
    omega

/-- The writer that a reservation finds a buffer in, and whether the block goes
to the start of a fragment. -/
theorem ensured_bounded {impl₁ : WriterImpl} {w₁ : World}
    (h : impl.buffer.isSome = true → impl.Bounded cfg)
    (hens : ensureBuffer B cfg o impl w = (true, impl₁, w₁)) :
    impl₁.Bounded cfg ∧ impl₁.buffer.isSome = true ∧ w₁.closed = w.closed ∧
      (impl.buffer.isSome = true → impl₁ = impl) ∧
      (impl.buffer = none → impl₁.offset = sizeofVersionHeader) := by
  have hspec := ensureBuffer_spec B cfg o impl w
  rw [hens] at hspec
  cases hspec with
  | kept _ _ hsome =>
      refine ⟨h hsome, hsome, rfl, fun _ => rfl, fun hn => ?_⟩
      rw [hn] at hsome
      cases hsome
  | fresh _ _ hnone hfresh hc _ =>
      have hoff := hfresh.holds.offset_eq
      rw [B.length_versionHeader] at hoff
      refine ⟨.of_header hfresh.holds hfresh.size hfresh.size_le
        (validateTraceSize_ge hfresh.valid), hfresh.holds.isSome, hc, fun hs => ?_, fun _ => hoff⟩
      rw [hnone] at hs
      cases hs

/-- A reservation that returns a block: the block is inside the buffer exactly
when it had room, and then the writer stays bounded. -/
theorem writerReserve_inside {off : Nat} {impl' : WriterImpl} {w' : World}
    (h : impl.buffer.isSome = true → impl.Bounded cfg) (hsize : size ≤ 2 ^ 36)
    (hres : writerReserve B cfg o impl w size = (some off, impl', w')) :
    (sizeofVersionHeader ≤ off ∧ off + size ≤ impl'.size ↔ Roomy cfg impl size) ∧
      (Roomy cfg impl size → impl'.Bounded cfg) ∧
      ∃ pages, w'.closed = w.closed ++ pages ∧ ∀ page ∈ pages, page.length ≤ cfg.traceSize := by
  have hmax : ptrdiffMax = 2 ^ 63 - 1 := rfl
  rcases writerReserve_spec B cfg o impl w size with ⟨_, _, -, hno⟩ | ⟨impl₁, w₁, hens, hplaced⟩
  · rw [hres] at hno
    cases hno
  obtain ⟨hb, hsome, hc, hkept, hfresh⟩ := ensured_bounded h hens
  obtain ⟨hsz, hle, h8, hoff⟩ := hb
  obtain ⟨b, hbuf⟩ := Option.isSome_iff_exists.mp hsome
  have hholds : impl₁.Holds (b.mem.load 0 impl₁.offset) := ⟨b, hbuf, rfl⟩
  have hplace := hplaced _ hholds
  rw [hres] at hplace
  cases hplace with
  | inPage hn =>
      have hfit : impl₁.offset + size ≤ cfg.traceSize := by
        simp only [writerNewTrace, decide_eq_false_iff_not, Nat.not_lt, hsz, Nat.lt_irrefl,
          if_false] at hn
        rwa [Nat.mod_eq_of_lt (by omega)] at hn
      have hroomy : Roomy cfg impl size := by
        cases hbuf : impl.buffer with
        | none => exact fun _ => hfresh hbuf ▸ hfit
        | some b =>
            rw [hkept (by rw [hbuf]; rfl)] at hn
            rintro (hnone | hnew)
            · rw [hbuf] at hnone
              cases hnone
            · rw [hn] at hnew
              cases hnew
      refine ⟨⟨fun _ => hroomy, fun _ => ⟨h8, ?_⟩⟩, fun _ =>
        reserved_bounded ⟨hsz, hle, h8, hoff⟩ hfit, [], by rw [hc, List.append_nil], by simp⟩
      change impl₁.offset + size ≤ impl₁.size
      omega
  | @rolled impl₂ w₂ hn hr =>
      have hsz₂ : impl₂.size = cfg.traceSize := by
        rcases hr.size with heq | ⟨-, heq, -⟩
        · exact heq.trans hsz
        · exact heq
      have hoff₂ : impl₂.offset = sizeofVersionHeader := by
        rw [hr.holds.offset_eq, B.length_versionHeader]
      have hroomy : Roomy cfg impl size ↔ sizeofVersionHeader + size ≤ cfg.traceSize := by
        refine ⟨fun hr => hr ?_, fun hle _ => hle⟩
        cases hbuf : impl.buffer with
        | none => exact .inl rfl
        | some b => exact .inr (hkept (by rw [hbuf]; rfl) ▸ hn)
      rw [hroomy]
      refine ⟨?_, fun hfit => ?_, [b.mem.load 0 impl₁.offset], by rw [hr.closed, hc], ?_⟩
      · change _ ∧ _ ≤ impl₂.size ↔ _
        omega
      · exact reserved_bounded (.of_header hr.holds hsz₂ hle (by omega)) (by omega)
      · intro page hpage
        rw [List.mem_singleton.mp hpage, Mem.length_load]
        omega

/-- A reservation that returns nothing leaves no buffer behind, or the writer as
it was. -/
theorem writerReserve_none {impl' : WriterImpl} {w' : World}
    (h : impl.buffer.isSome = true → impl.Bounded cfg)
    (hres : writerReserve B cfg o impl w size = (none, impl', w')) :
    (impl'.buffer = none ∨ impl' = impl) ∧
      ∃ pages, w'.closed = w.closed ++ pages ∧ ∀ page ∈ pages, page.length ≤ cfg.traceSize := by
  rcases writerReserve_spec B cfg o impl w size with ⟨_, _, hens, hno⟩ | ⟨impl₁, w₁, hens, hplaced⟩
  · rw [hres] at hno
    cases hno
    have hspec := ensureBuffer_spec B cfg o impl w
    rw [hens] at hspec
    cases hspec with
    | refused _ => exact ⟨.inr rfl, [], (List.append_nil _).symm, by simp⟩
    | pending _ _ _ _ _ hbuf => exact ⟨.inl hbuf, [], (List.append_nil _).symm, by simp⟩
    | broken _ _ _ hbr _ hc _ =>
        exact ⟨.inl hbr.buffer, [], hc.trans (List.append_nil _).symm, by simp⟩
  · obtain ⟨hb, hsome, hc, -, -⟩ := ensured_bounded h hens
    obtain ⟨b, hbuf⟩ := Option.isSome_iff_exists.mp hsome
    have hplace := hplaced (b.mem.load 0 impl₁.offset) ⟨b, hbuf, rfl⟩
    rw [hres] at hplace
    cases hplace with
    | broken _ _ hbr _ hc' =>
        refine ⟨.inl hbr.buffer, [b.mem.load 0 impl₁.offset], by rw [hc', hc], ?_⟩
        intro page hpage
        rw [List.mem_singleton.mp hpage, Mem.length_load, ← hb.size]
        exact hb.offset_le

end

/-! ## Appends -/

/-- Two writers that differ in the bytes of their buffers only. -/
structure SameShape (impl impl' : WriterImpl) : Prop where
  size : impl'.size = impl.size
  offset : impl'.offset = impl.offset
  isSome : impl'.buffer.isSome = impl.buffer.isSome

theorem SameShape.store {impl impl' : WriterImpl} (h : SameShape impl impl') (offset : Nat)
    (bs : List UInt8) : SameShape impl (impl'.store offset bs) :=
  ⟨h.size, h.offset, by rw [← h.isSome]; simp [WriterImpl.store]⟩

theorem WriterImpl.Bounded.of_sameShape {cfg : Config} {impl impl' : WriterImpl}
    (h : impl.Bounded cfg) (hs : SameShape impl impl') : impl'.Bounded cfg :=
  ⟨hs.size.trans h.size, h.size_le, hs.offset ▸ h.header_le, by
    rw [hs.offset, hs.size]; exact h.offset_le⟩

theorem appendRequest_le (cfg : Config) {th : Thread} (h : th.stackSize < 2 ^ 32) (type : UInt8) :
    appendRequest cfg th type ≤ 2 ^ 36 := by
  have hfix := entryFixedSize_le type
  have hstack : (stackRequest cfg th (entryFixedSize type)).2 ≤ 2 ^ 35 := by
    simp only [stackRequest]
    split
    next => omega
    next =>
      exact Nat.le_trans (Nat.mul_le_mul_right 8 (Nat.le_of_lt (Nat.mod_lt _ (by decide))))
        (by decide)
  rw [appendRequest]
  split <;> omega

/-- What an append does to the writer: nothing, or a reservation. -/
inductive AppendCase (B : Build) (cfg : Config) (o : Outcomes) (th : Thread) (w : World)
    (type : UInt8) : Option Nat × Thread × World → Prop where
  | refused : AppendCase B cfg o th w type (none, th, w)
  | reserved {off : Option Nat} {impl : WriterImpl} {th' : Thread} {w' : World} :
      writerReserve B cfg o th.writer w (appendRequest cfg th type) = (off, impl, w') →
      SameShape impl th'.writer → th'.initd = th.initd → th'.stackSize = th.stackSize →
      (off = none → th'.writer = impl) → AppendCase B cfg o th w type (off, th', w')

theorem threadAppend_spec (B : Build) (tid : Nat) (cfg : Config) (o : Outcomes) {th : Thread}
    (w : World) (type : UInt8) (ptr : UInt64) (hi : th.initd = true) :
    AppendCase B cfg o th w type (threadAppend B tid cfg o th w type ptr) := by
  have hsame : ∀ impl : WriterImpl, SameShape impl impl := fun _ => ⟨rfl, rfl, rfl⟩
  rw [threadAppend, getColdtraceThread_of_initd hi]
  dsimp only
  split
  next => exact .refused
  next =>
    split
    next => exact .refused
    next =>
      split
      next hs =>
        have hreq : appendRequest cfg th type = entryFixedSize type := by
          rw [appendRequest, if_neg (by simpa using hs)]
        have hth : (if writerNewTrace cfg th.writer (entryFixedSize type) = true then
            { th with stackBottom := 0 } else th).writer = th.writer ∧
            (if writerNewTrace cfg th.writer (entryFixedSize type) = true then
              { th with stackBottom := 0 } else th).initd = th.initd ∧
            (if writerNewTrace cfg th.writer (entryFixedSize type) = true then
              { th with stackBottom := 0 } else th).stackSize = th.stackSize := by
          split <;> exact ⟨rfl, rfl, rfl⟩
        generalize (if writerNewTrace cfg th.writer (entryFixedSize type) = true then
          { th with stackBottom := 0 } else th) = th₁ at hth ⊢
        obtain ⟨hw, hi', hss⟩ := hth
        rw [hw, ← hreq]
        cases hres : writerReserve B cfg o th.writer w (appendRequest cfg th type) with
        | mk off rest =>
            obtain ⟨impl, w'⟩ := rest
            cases off with
            | none => exact .reserved hres (hsame impl) hi' hss (fun _ => rfl)
            | some off =>
                exact .reserved hres ((hsame impl).store ..) hi' hss (fun h => by cases h)
      next hs =>
        have hreq : appendRequest cfg th type =
            entryFixedSize type + (stackRequest cfg th (entryFixedSize type)).2 := by
          rw [appendRequest, if_pos (by simpa using hs)]
        rw [← hreq]
        cases hres : writerReserve B cfg o th.writer w (appendRequest cfg th type) with
        | mk off rest =>
            obtain ⟨impl, w'⟩ := rest
            cases off with
            | none => exact .reserved hres (hsame impl) rfl rfl (fun _ => rfl)
            | some off =>
                exact .reserved hres ((((hsame impl).store ..).store ..).store ..) rfl rfl
                  (fun h => by cases h)

/-! ## Runs -/

/-- The bounds of a thread: those of its buffer, and those of the pages it
handed over. -/
structure State.Bounded (cfg : Config) (before : List (List UInt8)) (s : State) : Prop where
  initd : s.th.initd = true
  small : s.th.stackSize < 2 ^ 32
  live : s.th.writer.buffer.isSome = true → s.th.writer.Bounded cfg
  closed : ∃ pages, s.world.closed = before ++ pages ∧ ∀ page ∈ pages, page.length ≤ cfg.traceSize

section

variable {B : Build} {tid : Nat} {cfg : Config} {o : Outcomes} {before : List (List UInt8)}
  {s : State} {e : Entry}

theorem pages_append {closed closed' : List (List UInt8)}
    (h : ∃ pages, closed = before ++ pages ∧ ∀ page ∈ pages, page.length ≤ cfg.traceSize)
    (h' : ∃ pages, closed' = closed ++ pages ∧ ∀ page ∈ pages, page.length ≤ cfg.traceSize) :
    ∃ pages, closed' = before ++ pages ∧ ∀ page ∈ pages, page.length ≤ cfg.traceSize := by
  obtain ⟨pages, rfl, hp⟩ := h
  obtain ⟨pages', rfl, hp'⟩ := h'
  exact ⟨pages ++ pages', List.append_assoc .., List.forall_mem_append.mpr ⟨hp, hp'⟩⟩

/-- An append that returns a block: the block is inside the buffer exactly when
it had room. -/
theorem State.Bounded.inside_iff (h : s.Bounded cfg before) {off : Nat}
    (hoff : (threadAppend B tid cfg o s.th s.world e.byte e.ptr).1 = some off) :
    (sizeofVersionHeader ≤ off ∧ off + appendRequest cfg s.th e.byte ≤
      (threadAppend B tid cfg o s.th s.world e.byte e.ptr).2.1.writer.size) ↔
    Roomy cfg s.th.writer (appendRequest cfg s.th e.byte) := by
  have hspec := threadAppend_spec B tid cfg o s.world e.byte e.ptr h.initd
  generalize threadAppend B tid cfg o s.th s.world e.byte e.ptr = result at hoff hspec ⊢
  cases hspec with
  | refused => cases hoff
  | reserved hres hshape _ _ _ =>
      cases hoff
      dsimp only
      rw [hshape.size]
      exact (writerReserve_inside h.live (appendRequest_le cfg h.small _) hres).1

/-- An append keeps the bounds if the block it returns had room. -/
theorem State.Bounded.append (h : s.Bounded cfg before)
    (hroomy : ∀ off, (threadAppend B tid cfg o s.th s.world e.byte e.ptr).1 = some off →
      Roomy cfg s.th.writer (appendRequest cfg s.th e.byte)) :
    (subscriberAppend B tid cfg o s e).Bounded cfg before := by
  have hspec := threadAppend_spec B tid cfg o s.world e.byte e.ptr h.initd
  rw [subscriberAppend]
  generalize threadAppend B tid cfg o s.th s.world e.byte e.ptr = result at hroomy hspec
  cases hspec with
  | refused => exact h
  | @reserved off impl th' w' hres hshape hi hss hnone =>
      cases off with
      | none =>
          obtain ⟨hbuf, hpages⟩ := writerReserve_none h.live hres
          refine ⟨hi.trans h.initd, by rw [hss]; exact h.small, ?_, pages_append h.closed hpages⟩
          intro hsome
          rw [hnone rfl] at hsome ⊢
          rcases hbuf with hbuf | rfl
          · rw [hbuf] at hsome
            cases hsome
          · exact h.live hsome
      | some off =>
          obtain ⟨-, hb, hpages⟩ :=
            writerReserve_inside h.live (appendRequest_le cfg h.small _) hres
          exact ⟨hi.trans h.initd, by rw [hss]; exact h.small,
            fun _ => (hb (hroomy off rfl)).of_sameShape (hshape.store ..),
            pages_append h.closed hpages⟩

theorem State.Bounded.of_writer (h : s.Bounded cfg before) {th : Thread} (hi : th.initd = true)
    (hs : th.stackSize < 2 ^ 32) (hw : th.writer = s.th.writer) :
    State.Bounded cfg before ⟨th, s.world⟩ :=
  ⟨hi, hs, by rw [show th.writer = _ from hw]; exact h.live, h.closed⟩

/-- A push keeps the writer, for any depth of the stack. -/
theorem threadStackPush_writer (tid : Nat) (o : Outcomes) {th : Thread} (caller : UInt64)
    (hi : th.initd = true) (hs : th.stackSize < 2 ^ 32) :
    (threadStackPush tid o th caller).initd = true ∧
      (threadStackPush tid o th caller).stackSize < 2 ^ 32 ∧
      (threadStackPush tid o th caller).writer = th.writer := by
  have hput : ∀ th₁ : Thread, th₁.initd = true → th₁.writer = th.writer →
      (th₁.put caller).initd = true ∧ (th₁.put caller).stackSize < 2 ^ 32 ∧
        (th₁.put caller).writer = th.writer :=
    fun th₁ hi₁ hw₁ => ⟨hi₁, Nat.mod_lt _ (by decide), hw₁⟩
  rw [threadStackPush, getColdtraceThread_of_initd hi]
  split
  next => exact ⟨hi, hs, rfl⟩
  next =>
    split
    next =>
      rw [growStack]
      split
      next heq =>
        split at heq <;> cases heq
        exact ⟨hi, hs, rfl⟩
      next heq =>
        split at heq <;> cases heq
        exact hput _ hi rfl
    next => exact hput th hi rfl

theorem threadStackPop_writer (tid : Nat) {th : Thread} (hi : th.initd = true)
    (hs : th.stackSize < 2 ^ 32) :
    (threadStackPop tid th).initd = true ∧ (threadStackPop tid th).stackSize < 2 ^ 32 ∧
      (threadStackPop tid th).writer = th.writer := by
  rw [threadStackPop, getColdtraceThread_of_initd hi]
  split
  next => exact ⟨hi, hs, rfl⟩
  next =>
    split
    next => exact ⟨hi, by simp only; omega, rfl⟩
    next => exact ⟨hi, hs, rfl⟩

/-- Finishing hands over a page of at most the trace size. -/
theorem State.Bounded.fini (h : s.Bounded cfg before) :
    State.Bounded cfg before
      ⟨(threadFini B tid o s.th s.world).1, (threadFini B tid o s.th s.world).2⟩ := by
  obtain ⟨hoff, hon⟩ := writerFini_spec B o s.th.writer s.world
  rw [threadFini_eq B tid o s.world h.initd]
  refine ⟨h.initd, (by decide : 0 < 2 ^ 32), ?_, pages_append h.closed ?_⟩
  · intro hsome
    dsimp only at hsome ⊢
    cases hi : s.th.writer.initd with
    | false =>
        rw [hoff hi] at hsome ⊢
        exact h.live hsome
    | true =>
        rw [(hon hi).1] at hsome
        cases hsome
  · cases hi : s.th.writer.initd with
    | false => exact ⟨[], by rw [hoff hi, List.append_nil], by simp⟩
    | true =>
        cases hbuf : s.th.writer.buffer with
        | none => exact ⟨[], by rw [(hon hi).2.2.1 hbuf, List.append_nil], by simp⟩
        | some b =>
            refine ⟨_, (hon hi).2.2.2 (b.mem.load 0 s.th.writer.offset) ⟨b, hbuf, rfl⟩, ?_⟩
            have hlive := h.live (by rw [hbuf]; rfl)
            intro page hpage
            rw [List.mem_singleton.mp hpage, Mem.length_load, ← hlive.size]
            exact hlive.offset_le

/-- A run stays in its bounds as long as the blocks it reserves have room. -/
theorem bounded_run (B : Build) (tid : Nat) : ∀ {evs : List Event} {s : State},
    s.Bounded cfg before → (∀ ev ∈ evs, ev.cfg = cfg ∧ ev.op ≠ .init) →
    Along (step B tid) (fun s ev => ∀ e off, ev.op = .append e → s.Bounded cfg before →
      (threadAppend B tid cfg ev.o s.th s.world e.byte e.ptr).1 = some off →
      Roomy cfg s.th.writer (appendRequest cfg s.th e.byte)) s evs →
    Throughout (step B tid) (State.Bounded cfg before) s evs
  | [], s, h, _, _ => throughout_nil.mpr h
  | ⟨cfg', o, op⟩ :: evs, s, h, hev, hroomy => by
      rw [List.forall_mem_cons] at hev
      rw [along_cons] at hroomy
      obtain ⟨⟨hcfg, hop⟩, hev⟩ := hev
      replace hcfg := hcfg.symm
      subst hcfg
      refine throughout_cons.mpr ⟨h, bounded_run B tid ?_ hev hroomy.2⟩
      cases op with
      | init => exact absurd rfl hop
      | fini => exact h.fini
      | push caller =>
          obtain ⟨hi, hs, hw⟩ := threadStackPush_writer tid o caller h.initd h.small
          exact h.of_writer hi hs hw
      | pop =>
          obtain ⟨hi, hs, hw⟩ := threadStackPop_writer tid h.initd h.small
          exact h.of_writer hi hs hw
      | append e => exact h.append fun off hoff => hroomy.1 e off rfl h hoff

end

/-- The blocks of a run are inside the buffer, its offsets too, and no page is
larger than the trace size, exactly when every block that opens a fragment fits
an empty one. -/
theorem reservations_inside_iff (B : Build) (tid : Nat) (cfg : Config) (w : World)
    (evs : List Event) (hev : ∀ ev ∈ evs, ev.cfg = cfg ∧ ev.op ≠ .init) :
    let at' := run B tid ⟨threadInit tid {}, w⟩
    let append := fun (s : State) (o : Outcomes) (e : Entry) =>
      threadAppend B tid cfg o s.th s.world e.byte e.ptr
    ((∀ pre ev post e off, evs = pre ++ ev :: post → ev.op = .append e →
        (append (at' pre) ev.o e).1 = some off →
        sizeofVersionHeader ≤ off ∧ off + appendRequest cfg (at' pre).th e.byte ≤
          (append (at' pre) ev.o e).2.1.writer.size) ∧
      ∀ pre, pre <+: evs →
        ((at' pre).th.writer.buffer.isSome = true →
          sizeofVersionHeader ≤ (at' pre).th.writer.offset ∧
          (at' pre).th.writer.offset ≤ (at' pre).th.writer.size) ∧
        ∀ page ∈ (at' pre).world.closed.drop w.closed.length, page.length ≤ cfg.traceSize) ↔
    ∀ pre ev post e off, evs = pre ++ ev :: post → ev.op = .append e →
      (append (at' pre) ev.o e).1 = some off →
      Roomy cfg (at' pre).th.writer (appendRequest cfg (at' pre).th e.byte) := by
  intro at' append
  have hstart : State.Bounded cfg w.closed ⟨threadInit tid {}, w⟩ :=
    ⟨rfl, (by decide : 0 < 2 ^ 32), fun h => (nomatch h), [], (List.append_nil _).symm, by simp⟩
  constructor
  · rintro ⟨hinside, -⟩
    have hbounded := bounded_run B tid hstart hev
      fun pre ev post heq e off hop hb hoff =>
        (hb.inside_iff hoff).mp (hinside pre ev post e off heq hop hoff)
    intro pre ev post e off heq hop hoff
    have hb := hbounded pre ⟨ev :: post, heq.symm⟩
    exact (hb.inside_iff hoff).mp (hinside pre ev post e off heq hop hoff)
  · intro hroomy
    have hbounded := bounded_run B tid hstart hev
      fun pre ev post heq e off hop _ hoff => hroomy pre ev post e off heq hop hoff
    refine ⟨fun pre ev post e off heq hop hoff => ?_, fun pre hpre => ⟨fun hsome => ?_, ?_⟩⟩
    · have hb := hbounded pre ⟨ev :: post, heq.symm⟩
      exact (hb.inside_iff hoff).mpr (hroomy pre ev post e off heq hop hoff)
    · have hlive := (hbounded pre hpre).live hsome
      exact ⟨hlive.header_le, hlive.offset_le⟩
    · have hb : (at' pre).Bounded cfg w.closed := hbounded pre hpre
      obtain ⟨pages, hc, hp⟩ := hb.closed
      rw [hc, List.drop_left]
      exact hp

/-- A marker in a trace of 64 bytes has room. -/
theorem reservations_inside_marker :
    let evs : List Event :=
      [{ cfg := { traceSize := 64 }, op := .append { type := .testMarker, ptr := 5 } }]
    ∀ pre, pre <+: evs →
      let writer := (run literalBuild 3 ⟨threadInit 3 {}, {}⟩ pre).th.writer
      writer.buffer.isSome = true → 8 ≤ writer.offset ∧ writer.offset ≤ writer.size := by
  intro evs pre hpre
  refine (((reservations_inside_iff literalBuild 3 { traceSize := 64 } {} evs
    (by simp [evs])).mpr ?_).2 pre hpre).1
  intro pre ev post e off heq hop _
  rcases pre with _ | ⟨_, _ | ⟨_, pre⟩⟩
  · obtain ⟨rfl, rfl⟩ := List.cons.inj heq
    cases hop
    exact fun _ => by decide
  · simp [evs] at heq
  · simp [evs] at heq

/-- A write under five frames in a trace of 64 bytes: it has 32 bytes and 40
bytes of stack, and it is placed at offset 8. -/
theorem reservation_overruns :
    let cfg : Config := { traceSize := 64 }
    let push : Event := { cfg, op := .push 1 }
    let e : Entry := { type := .write, ptr := 5 }
    let s := run literalBuild 3 ⟨threadInit 3 {}, {}⟩ [push, push, push, push, push]
    let result := threadAppend literalBuild 3 cfg {} s.th s.world e.byte e.ptr
    validateTraceSize cfg.traceSize true = true ∧ result.1 = some 8 ∧
      appendRequest cfg s.th e.byte = 72 ∧ result.2.1.writer.size = 64 ∧
      result.2.1.writer.offset = 80 := by
  decide

end Coldtrace
