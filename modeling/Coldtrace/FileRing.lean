import Mathlib.Tactic.Common
import Coldtrace.Lib.Ring
import Coldtrace.Writer
import Coldtrace.Reserve
import Coldtrace.Session
import Coldtrace.Files

/-!
# The ring of fragment files

`COLDTRACE_MAX_FILES` bounds the number of files of a thread.  The fragments are
numbered from 0 on, and fragment `j` goes to the file `j % N`.  So the files are
a ring (`Ring.latest`) of the last `N` fragments.

The number of the next file is computed when a fragment starts and used when it
is flushed, and the first number is chosen by `first_fragment_`.  `InRing` is
what holds between two flushes.
-/

namespace Coldtrace

open Ring

/-- No call of the file system fails.  A short or an interrupted write is not a
failure.  Allocations and compressions may fail. -/
structure Outcomes.NoIoFailure (o : Outcomes) : Prop where
  openExcl : ∀ n, o.openExcl n = true
  openTrunc : o.openTrunc = true
  writes : WriteResult.error ∉ o.writes

/-- The files hold the ring of `k` fragments.  Before there were `f₀` writes and
`c₀` pages. -/
structure InRing (B : Build) (N f₀ c₀ k : Nat) (d : Disk) : Prop where
  flushes : d.calls.countP FsCall.isWrite = f₀ + k
  names : 0 < k → ∀ i, i ∈ d.dir.names ↔ (latest N i k).isSome = true
  images : ∀ i j, latest N i k = some j →
    ∃ page, d.closed[c₀ + j]? = some page ∧ IsImage B page (d.dir.content i)

section

variable {B : Build} {N f₀ c₀ k n : Nat} {d : Disk}

/-- The next fragment is written to the file `k % N`. -/
theorem InRing.write {page file : List UInt8} (h : InRing B N f₀ c₀ k d)
    (hlen : d.closed.length = c₀ + k) (hclaim : k = 0 → ∀ i ∈ d.dir.names, i = 0)
    (himage : IsImage B page file) :
    InRing B N f₀ c₀ (k + 1) ⟨(d.dir.openEmpty (k % N)).put (k % N) file, d.closed ++ [page],
      d.calls ++ [.openTrunc (k % N), .write (k % N)]⟩ where
  flushes := by
    rw [List.countP_append, h.flushes]
    rfl
  names := by
    intro _ i
    have hmem : i ∈ ((d.dir.openEmpty (k % N)).put (k % N) file).names ↔
        i ∈ d.dir.names ∨ i = k % N := mem_names_openEmpty
    rw [hmem, latest_succ]
    split
    next hi => simp [hi]
    next hi =>
      rw [or_iff_left (Ne.symm hi)]
      cases k with
      | zero =>
          refine ⟨fun hin => absurd ?_ hi, fun hin => by cases hin⟩
          rw [hclaim rfl i hin, Nat.zero_mod]
      | succ k => exact h.names (Nat.succ_pos k) i
  images := by
    intro i j hj
    rw [latest_succ] at hj
    simp only [content_put, content_openEmpty]
    split at hj
    next hi =>
      cases hj
      rw [if_pos hi.symm]
      exact ⟨page, by rw [← hlen, List.getElem?_concat_length], himage⟩
    next hi =>
      rw [if_neg (Ne.symm hi), if_neg (Ne.symm hi)]
      obtain ⟨old, hold, holdimage⟩ := h.images i j hj
      refine ⟨old, ?_, holdimage⟩
      rw [List.getElem?_append_left (List.getElem?_eq_some_iff.mp hold).1, hold]

/-- What happens to the pages and the calls apart from a write keeps the ring. -/
theorem InRing.keep {pages : List (List UInt8)} {calls : List FsCall} (h : InRing B N f₀ c₀ k d)
    (hcalls : calls.countP FsCall.isWrite = d.calls.countP FsCall.isWrite) :
    InRing B N f₀ c₀ k ⟨d.dir, d.closed ++ pages, calls⟩ where
  flushes := hcalls.trans h.flushes
  names := h.names
  images := by
    intro i j hj
    obtain ⟨page, hpage, himage⟩ := h.images i j hj
    exact ⟨page, by rw [List.getElem?_append_left (List.getElem?_eq_some_iff.mp hpage).1, hpage],
      himage⟩

theorem InRing.zero (hf : d.calls.countP FsCall.isWrite = f₀) : InRing B N f₀ c₀ 0 d where
  flushes := hf
  names := fun h => absurd h (Nat.lt_irrefl 0)
  images := fun _ _ h => by cases h

end

/-- The rule for the ring. -/
theorem ring_rule (B : Build) {N : UInt32} (hpos : 0 < N.toNat) (f₀ c₀ : Nat) :
    DiskRule B N (fun _ _ o => o.NoIoFailure)
      (fun d => d.dir.names = [] ∧ d.calls.countP FsCall.isWrite = f₀ ∧ d.closed.length = c₀)
      (fun d n => ∃ k, InRing B N.toNat f₀ c₀ k d ∧ d.closed.length = c₀ + k ∧ n = k % N.toNat ∧
        (k = 0 → ∀ i ∈ d.dir.names, i = 0))
      (fun d n => ∃ k, InRing B N.toNat f₀ c₀ (k + 1) d ∧ d.closed.length = c₀ + (k + 1) ∧
        n = k % N.toNat)
      (fun d => ∃ k, InRing B N.toNat f₀ c₀ k d) where
  empty := fun d h => h.1
  refuse := by
    rintro d calls ⟨-, hf, -⟩ hcalls
    refine ⟨0, .zero ?_⟩
    rcases hcalls with rfl | rfl
    · exact hf
    · rw [List.countP_append, hf]
      rfl
  claim := by
    rintro d ⟨hnames, hf, hlen⟩
    refine ⟨0, .zero ?_, hlen, (Nat.zero_mod _).symm, fun _ i hi => ?_⟩
    · rw [List.countP_append, hf]
      rfl
    · simpa [mem_names_openEmpty, hnames] using hi
  write := by
    rintro d impl o page file ⟨k, hring, hlen, hn, hclaim⟩ - - himage
    rw [hn]
    refine ⟨k, hring.write hlen hclaim himage, ?_, rfl⟩
    rw [List.length_append, hlen]
    rfl
  fail := by
    rintro d impl o page calls ⟨k, hring, -, -, -⟩ - ho hcalls
    rcases hcalls with rfl | ⟨htrunc, -⟩
    · exact ⟨k, hring.keep rfl⟩
    · rw [ho.openTrunc] at htrunc
      cases htrunc
  remove := fun d impl o page dir' _ herr ho => absurd herr ho.writes
  next := by
    rintro d n ⟨k, hring, hlen, rfl⟩
    refine ⟨k + 1, hring, hlen, ?_, fun h => absurd h (Nat.succ_ne_zero k)⟩
    -- the number is below `N`, so `uint32_t` wraps only when the ring does
    have hN := N.toNat_lt
    have hlt := Nat.mod_lt k hpos
    have hwrap : (k % N.toNat + 1) % 2 ^ 32 = k % N.toNat + 1 := Nat.mod_eq_of_lt (by omega)
    rw [hwrap, Nat.mod_add_mod]
  finish := fun d n ⟨k, hring, _, _⟩ => ⟨k + 1, hring⟩
  idle_ended := fun d ⟨_, hf, _⟩ => ⟨0, .zero hf⟩

/-- The files of a session are the ring of its last fragments, in a directory
that was empty and without a failure of the file system. -/
theorem files_form_ring (B : Build) (N : UInt32) (hN : 1 ≤ N.toNat) (impl : WriterImpl) (tid : Nat)
    (w : World) (hdir : w.dir.names = []) (evs : List WriterEvent)
    (hevs : ∀ ev ∈ evs, ev.cfg.writesDisabled = false ∧ ev.cfg.maxFileCount = N ∧
      ev.o.NoIoFailure) (k : Nat) (hk : 1 ≤ k)
    (hflushes : ((Session.start impl tid w).run B evs).world.flushes = w.flushes + k) :
    let w' := ((Session.start impl tid w).run B evs).world
    (∀ i, i ∈ w'.dir.names ↔ i < min k N.toNat) ∧
    (∀ i, i < min k N.toNat → ∃ j page, j < k ∧ j % N.toNat = i ∧
      (∀ j', j' < k → j' % N.toNat = i → j' ≤ j) ∧
      w'.closed[w.closed.length + j]? = some page ∧ IsImage B page (w'.dir.content i)) ∧
    (∀ j, j < k → k ≤ j + N.toNat → ∃ page, w'.closed[w.closed.length + j]? = some page ∧
      IsImage B page (w'.dir.content (j % N.toNat))) := by
  intro w'
  have hphase := (ring_rule B hN w.flushes w.closed.length).run (s := Session.start impl tid w)
    (.idle rfl rfl rfl ⟨hdir, rfl, rfl⟩) evs (fun ev hev => ⟨(hevs ev hev).1, (hevs ev hev).2.1⟩)
    fun pre ev post heq _ _ => (hevs ev (by simp [heq])).2.2
  obtain ⟨k', hring⟩ : ∃ k', InRing B N.toNat w.flushes w.closed.length k' w'.disk := by
    cases hphase with
    | idle _ _ _ h => exact ⟨0, .zero h.2.1⟩
    | filling _ _ _ _ h =>
        obtain ⟨k', hring, -⟩ := h
        exact ⟨k', hring⟩
    | ended _ _ h => exact h
  obtain rfl : k' = k := Nat.add_left_cancel (hring.flushes.symm.trans hflushes)
  refine ⟨fun i => ?_, fun i hi => ?_, fun j hj hrecent => ?_⟩
  · exact (hring.names hk i).trans (latest_isSome hN)
  · obtain ⟨j, hj⟩ := Option.isSome_iff_exists.mp ((latest_isSome hN).mpr hi)
    obtain ⟨hlt, hmod, hlast⟩ := latest_eq_some hj
    obtain ⟨page, hpage, himage⟩ := hring.images i j hj
    exact ⟨j, page, hlt, hmod, hlast, hpage, himage⟩
  · exact hring.images _ j (latest_recent hj hrecent)

/-- Two fragments in a ring of one file. -/
theorem files_form_ring_one :
    let cfg : Config := { traceSize := 16, maxFileCount := 1 }
    let s := (Session.start {} 3 {}).run literalBuild
      [⟨cfg, {}, .reserve 8⟩, ⟨cfg, {}, .reserve 8⟩, ⟨cfg, {}, .fini⟩]
    s.world.flushes = 2 ∧ s.world.dir.names = [0] ∧
      ∃ page, s.world.closed[1]? = some page ∧ IsImage literalBuild page
        (s.world.dir.content 0) := by
  intro cfg s
  have hevs : ∀ ev ∈ [(⟨cfg, {}, .reserve 8⟩ : WriterEvent), ⟨cfg, {}, .reserve 8⟩,
      ⟨cfg, {}, .fini⟩], ev.cfg.writesDisabled = false ∧ ev.cfg.maxFileCount = 1 ∧
      ev.o.NoIoFailure := by
    have ho : Outcomes.NoIoFailure {} := ⟨fun _ => rfl, rfl, by decide⟩
    simp [cfg, ho]
  have hflushes : s.world.flushes = 2 := by decide
  obtain ⟨-, -, hlast⟩ := files_form_ring literalBuild 1 (by decide) {} 3 {} rfl _ hevs 2
    (by decide) hflushes
  exact ⟨hflushes, by decide, hlast 1 (by decide) (by decide)⟩

end Coldtrace
