import Mathlib.Tactic.Common
import Coldtrace.Lib.Decimal
import Coldtrace.Writer
import Coldtrace.Session
import Coldtrace.Files
import Coldtrace.Config

/-!
# Fragment numbers

`advance_fragment_` takes the next fragment number modulo the configured maximum,
and nothing between `strtoul` and that remainder checks the maximum.  The
remainder is defined and the numbers stay below the maximum in every session
exactly when the text of `COLDTRACE_MAX_FILES` does not become 0 as a `uint32_t`.
-/

namespace Coldtrace

open Decimal

/-- The divisor of the remainder in `advance_fragment_`, if the call of the
session gets there: the entry needs a new fragment, and the flush of the old one
leaves the writer its mapped buffer. -/
def Session.divisor (B : Build) (s : Session) (ev : WriterEvent) : Option Nat :=
  match s.flushing B ev, ev.call with
  | some impl, .reserve _ =>
      let flushed := (flush B ev.o impl (ensureBuffer B ev.cfg ev.o s.impl s.world).2.2).1
      if flushed.buffer.isSome && flushed.mmapped then some ev.cfg.maxFileCount.toNat else none
  | _, _ => none

/-- Writes are enabled and the maximum is `N`. -/
def WriterEvent.Configured (N : UInt32) (ev : WriterEvent) : Prop :=
  ev.cfg.writesDisabled = false ∧ ev.cfg.maxFileCount = N

/-- Fragment numbers are defined for a value of `COLDTRACE_MAX_FILES`.  In every
session with writes enabled every divisor is positive, and if there were no
files every number used is below the maximum.  The trace size of a session is
arbitrary. -/
def NumberingDefined (var : Option (List UInt8)) : Prop :=
  ∀ (env : Env) (dirExists dirEmptied : Bool), env.maxFiles = var →
    (moduleInit env dirExists dirEmptied).writesDisabled = false →
    let N := (moduleInit env dirExists dirEmptied).maxFileCount
    ∀ (B : Build) (impl : WriterImpl) (tid : Nat) (w : World) (evs : List WriterEvent),
      (∀ ev ∈ evs, ev.Configured N) →
      let s := (Session.start impl tid w).run B evs
      (∀ ev, ev.Configured N → ∀ divisor, s.divisor B ev = some divisor → 0 < divisor) ∧
      (w.dir.names = [] → ∃ used, s.world.calls = w.calls ++ used ∧
        ∀ c ∈ used, c.number < N.toNat)

section

variable {B : Build} {N : UInt32}

/-- The calls made after the first `calls` have numbers below `N`. -/
def UsesBelow (N : UInt32) (calls : List FsCall) (d : Disk) : Prop :=
  ∃ used, d.calls = calls ++ used ∧ ∀ c ∈ used, c.number < N.toNat

theorem UsesBelow.append {calls more : List FsCall} {d : Disk} {dir : Dir}
    {closed : List (List UInt8)} (h : UsesBelow N calls d)
    (hmore : ∀ c ∈ more, c.number < N.toNat) :
    UsesBelow N calls ⟨dir, closed, d.calls ++ more⟩ := by
  obtain ⟨used, hd, hused⟩ := h
  refine ⟨used ++ more, by rw [hd, List.append_assoc], fun c hc => ?_⟩
  rcases List.mem_append.mp hc with hc | hc
  · exact hused c hc
  · exact hmore c hc

/-- The rule for the numbers, for a maximum that is not 0. -/
theorem number_rule (B : Build) (hN : 0 < N.toNat) (calls : List FsCall) :
    DiskRule B N (fun _ _ _ => True) (fun d => d.dir.names = [] ∧ d.calls = calls)
      (fun d n => n < N.toNat ∧ UsesBelow N calls d) (fun d n => n < N.toNat ∧ UsesBelow N calls d)
      (UsesBelow N calls) where
  empty := fun d h => h.1
  refuse := by
    rintro d calls' ⟨-, rfl⟩ (rfl | rfl)
    · exact ⟨[], (List.append_nil _).symm, by simp⟩
    · exact ⟨_, rfl, by simpa [FsCall.number] using hN⟩
  claim := by
    rintro d ⟨-, rfl⟩
    exact ⟨hN, _, rfl, by simpa [FsCall.number] using hN⟩
  write := by
    rintro d impl o page file ⟨hn, hused⟩ - - -
    exact ⟨hn, hused.append (by simp [FsCall.number, hn])⟩
  fail := by
    rintro d impl o page calls' ⟨hn, hused⟩ - - (rfl | ⟨-, rfl⟩)
    · exact hused
    · exact hused.append (by simp [FsCall.number, hn])
  remove := by
    rintro d impl o page dir' ⟨hn, hused⟩ - - - -
    exact hused.append (by simp [FsCall.number, hn])
  next := fun d n h => ⟨Nat.mod_lt _ hN, h.2⟩
  finish := fun d n h => h.2
  idle_ended := fun d h => ⟨[], by rw [h.2, List.append_nil], by simp⟩

theorem divisor_eq {s : Session} {ev : WriterEvent} {divisor : Nat}
    (h : s.divisor B ev = some divisor) : divisor = ev.cfg.maxFileCount.toNat := by
  rw [Session.divisor] at h
  split at h
  next =>
    dsimp only at h
    split at h
    · exact (Option.some.inj h).symm
    · cases h
  next => cases h

/-- A session with a maximum of 0 in which a remainder is taken: the fragments
have room for one entry of 8 bytes. -/
theorem divisor_zero_of_max_zero :
    let cfg : Config := { traceSize := 16, maxFileCount := 0 }
    ((Session.start {} 3 {}).run literalBuild [⟨cfg, {}, .reserve 8⟩]).divisor literalBuild
      ⟨cfg, {}, .reserve 8⟩ = some 0 := by decide

end

theorem numbering_defined_iff (var : Option (List UInt8)) :
    NumberingDefined var ↔ configuredMax var ≠ 0 := by
  constructor
  · intro h hzero
    let env : Env := { maxFiles := var, path := some (ascii "traces") }
    have hwrites : (moduleInit env true true).writesDisabled = false := by
      cases var <;> rfl
    have hN : (moduleInit env true true).maxFileCount = 0 := by
      rw [moduleInit_maxFileCount]
      exact hzero
    have hcfg : ∀ call, (⟨{ traceSize := 16, maxFileCount := 0 }, {}, call⟩ :
        WriterEvent).Configured (moduleInit env true true).maxFileCount :=
      fun call => ⟨rfl, hN.symm⟩
    have hpos := (h env true true rfl hwrites literalBuild {} 3 {}
      [⟨{ traceSize := 16, maxFileCount := 0 }, {}, .reserve 8⟩]
      (by simpa using hcfg (.reserve 8))).1 _ (hcfg (.reserve 8)) 0 divisor_zero_of_max_zero
    exact absurd hpos (Nat.lt_irrefl 0)
  · rintro hvar env dirExists dirEmptied rfl - N B impl tid w evs hevs s
    have hN : 0 < N.toNat := by
      have hne : N ≠ 0 := by rwa [show N = _ from moduleInit_maxFileCount ..]
      exact Nat.pos_of_ne_zero fun h0 => hne (UInt32.toNat_inj.mp h0)
    refine ⟨fun ev hev divisor hdiv => ?_, fun hdir => ?_⟩
    · rw [divisor_eq hdiv, hev.2]
      exact hN
    · have hphase := (number_rule B hN w.calls).run (s := Session.start impl tid w)
        (.idle rfl rfl rfl ⟨hdir, rfl⟩) evs hevs fun _ _ _ _ _ _ => trivial
      cases hphase with
      | idle _ _ _ h => exact ⟨[], by rw [List.append_nil]; exact h.2, by simp⟩
      | filling _ _ _ _ h => exact h.2
      | ended _ _ h => exact h

/-- `COLDTRACE_MAX_FILES=0` with fragments for one entry: the second entry
divides by 0. -/
theorem numbering_undefined_zero :
    let env : Env :=
      { maxFiles := some (ascii "0")
        traceSize := some (ascii "16")
        path := some (ascii "traces") }
    let cfg := (moduleInit env true true).toConfig
    cfg.writesDisabled = false ∧
      ((Session.start {} 3 {}).run literalBuild [⟨cfg, {}, .reserve 8⟩]).divisor literalBuild
        ⟨cfg, {}, .reserve 8⟩ = some 0 := by decide

end Coldtrace
