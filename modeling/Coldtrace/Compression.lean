import Mathlib.Algebra.GroupWithZero.Nat
import Mathlib.Data.List.Basic
import Mathlib.Logic.Function.Basic
import Mathlib.Tactic.Common
import Coldtrace.Lib.Bytes
import Coldtrace.Lib.Lz4
import Coldtrace.Lib.Lz4Encode
import Coldtrace.Writer
import Coldtrace.Compressor
import Coldtrace.MatchLength
import Coldtrace.CompressorOutput

/-!
# The compressor writes blocks

The compressor keeps sequences of its source in the destination.  What follows
from the table of positions is only where it looks for a match: every match is
compared with the source before it is written.  So the block decodes to the
source whatever the hashes are.
-/

namespace Coldtrace

open Bytes Lz4

namespace Compressor

/-- What `LZ4_compress_fast` ensures for the inner functions. -/
structure Call.Ok (c : Call) : Prop where
  size : c.src.length ≤ lz4MaxInputSize
  small : c.tableType = .byU16 → c.src.length < limit64K
  room : c.outputDirective = .notLimited → c.src.length + c.src.length / 255 + 16 ≤ c.cap
  acceleration : 1 ≤ c.acceleration

/-! ## The hash table -/

section

variable {c : Call} {table : Nat → Nat}

theorem Call.Ok.size_lt (hc : c.Ok) : c.src.length < 2 ^ 32 :=
  Nat.lt_of_le_of_lt hc.size (by decide)

theorem mflimitPlusOne_eq (hlong : minLength ≤ c.src.length) :
    c.mflimitPlusOne + 11 = c.src.length := by
  simp only [minLength, mfLimit] at hlong
  rw [Call.mflimitPlusOne, mfLimit]
  omega

/-- What is not refused has room, or the destination has the worst case size. -/
theorem Call.Ok.room_of (hc : c.Ok) {need : Nat} (h : ¬ c.overflows need = true) :
    need ≤ c.cap ∨ c.src.length + c.src.length / 255 + 16 ≤ c.cap := by
  cases hd : c.outputDirective with
  | notLimited => exact .inr (hc.room hd)
  | limitedOutput =>
      simp only [Call.overflows, hd, beq_self_eq_true, Bool.true_and, decide_eq_true_eq] at h
      exact .inl (Nat.le_of_not_lt h)

theorem limited_of_overflows {need : Nat} (h : c.overflows need = true) :
    c.outputDirective = .limitedOutput := by
  simp only [Call.overflows, Bool.and_eq_true, beq_iff_eq] at h
  exact h.1

theorem hash4_lt (sequence : Nat) : hash4 sequence .byU16 < 2 ^ tableLog .byU16 := by
  rw [hash4, Nat.shiftRight_eq_div_pow]
  simp only [tableLog, hashLog, minMatch]
  omega

theorem hash5_lt (sequence : Nat) : hash5 sequence .byU32 < 2 ^ tableLog .byU32 := by
  rw [hash5, Nat.shiftRight_eq_div_pow]
  simp only [tableLog, hashLog]
  omega

/-- A position at least eight bytes before the end has a place in the table. -/
theorem hashPosition_spec {src : List UInt8} {p : Nat} (h : p + 8 ≤ src.length)
    (tableType : TableType) :
    ∃ i, hashPosition src p tableType = some i ∧ i < 2 ^ tableLog tableType := by
  cases tableType with
  | byU32 => exact ⟨_, by rw [hashPosition, read_eq h, Option.map_some], hash5_lt _⟩
  | byU16 =>
      have h4 : p + 4 ≤ src.length := by omega
      exact ⟨_, by rw [hashPosition, read_eq h4, Option.map_some], hash4_lt _⟩

theorem getIndexOnHash_eq {i : Nat} (hi : i < 2 ^ tableLog c.tableType) :
    getIndexOnHash i table c.tableType = some (table i) := if_pos hi

/-- A position where a match may start fits in an entry of the table. -/
theorem Call.Ok.putIndexOnHash_eq (hc : c.Ok) {i idx : Nat} (hi : i < 2 ^ tableLog c.tableType)
    (hidx : idx + mfLimit ≤ c.src.length) :
    putIndexOnHash (idx % 2 ^ 32) i table c.tableType = some (Function.update table i idx) := by
  have hsize := hc.size_lt
  have hmod : idx % 2 ^ 32 = idx := by omega
  cases ht : c.tableType with
  | byU32 => rw [putIndexOnHash, if_pos (ht ▸ hi), hmod, hmod]
  | byU16 =>
      have hsmall := hc.small ht
      simp only [limit64K, mfLimit] at hsmall hidx
      have hmod16 : idx % 2 ^ 16 = idx := by omega
      rw [putIndexOnHash, if_pos (ht ▸ hi), hmod, hmod16]

theorem update_le {i idx bound : Nat} (htable : ∀ j, table j ≤ bound)
    (hidx : idx ≤ bound) (j : Nat) : Function.update table i idx j ≤ bound := by
  rw [Function.update_apply]
  split
  next => exact hidx
  next => exact htable j

end

/-! ## Looking for a match -/

/-- A place where a match may start, and a place before it with the same bytes. -/
structure Found (c : Call) (from' ip found : Nat) (table : Nat → Nat) : Prop where
  from_le : from' ≤ ip
  ip_le : ip + mfLimit ≤ c.src.length
  lt : found < ip
  near : ip - found ≤ distanceMax
  same : Same c.src ip found minMatch
  table : ∀ i, table i ≤ ip

section

variable {c : Call}

theorem Found.mono {from' from'' ip found : Nat} {table : Nat → Nat}
    (h : Found c from'' ip found table) (hle : from' ≤ from'') : Found c from' ip found table :=
  ⟨Nat.le_trans hle h.from_le, h.ip_le, h.lt, h.near, h.same, h.table⟩

/-- The search ends, and finds only matches. -/
theorem Call.Ok.search_spec (hc : c.Ok) (hlong : minLength ≤ c.src.length)
    {fuel ip step nb h : Nat} {table : Nat → Nat} (hh : h < 2 ^ tableLog c.tableType)
    (hip : ip ≤ c.mflimitPlusOne) (hstep : 1 ≤ step) (hnb : 1 ≤ nb >>> skipTrigger)
    (htable : ∀ i, table i < ip) (hfuel : c.mflimitPlusOne - ip < fuel) :
    ∃ place h' table', c.search fuel ip step nb h table = some (place, h', table') ∧
      ∀ ip' found, place = some (ip', found) → Found c ip ip' found table' := by
  have hlimit := mflimitPlusOne_eq hlong
  have hsize := hc.size_lt
  induction fuel generalizing ip step nb h table with
  | zero => exact absurd hfuel (Nat.not_lt_zero _)
  | succ fuel ih =>
      have hmod : ip % 2 ^ 32 = ip := Nat.mod_eq_of_lt (by omega)
      rw [Call.search, getIndexOnHash_eq hh]
      dsimp only [Option.bind_eq_bind, Option.bind_some]
      split
      next => exact ⟨none, h, table, rfl, fun _ _ heq => by cases heq⟩
      next hlast =>
        have hidx : ip + mfLimit ≤ c.src.length := by
          rw [mfLimit]
          omega
        have hnextIn : ip + step + 8 ≤ c.src.length := by omega
        obtain ⟨h', hhash, hh'⟩ := hashPosition_spec hnextIn c.tableType
        have htable' : ∀ i, Function.update table h ip i ≤ ip :=
          update_le (fun i => Nat.le_of_lt (htable i)) (Nat.le_refl ip)
        have hnext : ∀ i, Function.update table h ip i < ip + step := fun i =>
          Nat.lt_of_le_of_lt (htable' i) (by omega)
        have hnb' : 1 ≤ (nb + 1) >>> skipTrigger :=
          Nat.le_trans hnb (by
            rw [Nat.shiftRight_eq_div_pow, Nat.shiftRight_eq_div_pow]
            exact Nat.div_le_div_right (Nat.le_succ nb))
        have hgo := ih hh' (Nat.le_of_not_lt hlast) hnb hnb' hnext (by omega)
        have hgo' : ∃ place h'' table'', c.search fuel (ip + step) (nb >>> skipTrigger) (nb + 1) h'
              (Function.update table h ip) = some (place, h'', table'') ∧
            ∀ ip' found, place = some (ip', found) → Found c ip ip' found table'' := by
          obtain ⟨place, h'', table'', heq, hfound⟩ := hgo
          exact ⟨place, h'', table'', heq, fun ip' found hp =>
            (hfound ip' found hp).mono (Nat.le_add_right ..)⟩
        rw [hhash, hc.putIndexOnHash_eq hh hidx]
        dsimp only [Option.bind_some]
        split
        next => exact hgo'
        next hnear =>
          have hlt := htable h
          have hdist : ip - table h ≤ distanceMax := by
            rw [hmod] at hnear
            by_cases ht : c.tableType = .byU16
            · have hsmall := hc.small ht
              simp only [limit64K, mfLimit, distanceMax] at hsmall hidx ⊢
              omega
            · have hfar : ¬ table h + distanceMax < ip := fun hf => hnear ⟨ht, hf⟩
              omega
          have hread : table h + 4 ≤ c.src.length := by omega
          have hread' : ip + 4 ≤ c.src.length := by omega
          rw [read_eq hread, read_eq hread']
          dsimp only [Option.bind_some]
          split
          next heq =>
            refine ⟨_, _, _, rfl, fun ip' found hp => ?_⟩
            cases hp
            exact ⟨Nat.le_refl _, hidx, hlt, hdist,
              (readLe_eq_iff hread' hread).mp heq.symm, htable'⟩
          next => exact hgo'

/-- Two places that were moved to the left over the same bytes. -/
structure CaughtUp (src : List UInt8) (anchor ip found : Nat) (place : Nat × Nat) (j : Nat) :
    Prop where
  ip : place.1 + j = ip
  found : place.2 + j = found
  anchor : anchor ≤ place.1
  same : Same src place.1 place.2 j

theorem CaughtUp.zero {src : List UInt8} {anchor ip found : Nat} (h : anchor ≤ ip) :
    CaughtUp src anchor ip found (ip, found) 0 :=
  ⟨rfl, rfl, h, fun i hi => absurd hi (Nat.not_lt_zero i)⟩

theorem CaughtUp.succ {src : List UInt8} {anchor ip found j : Nat} {place : Nat × Nat}
    (h : CaughtUp src anchor ip found place j) (hsame : Same src ip found 1) :
    CaughtUp src anchor (ip + 1) (found + 1) place (j + 1) := by
  obtain ⟨rfl, rfl, hanchor, hj⟩ := h
  exact ⟨rfl, rfl, hanchor, same_add.mpr ⟨hj, hsame⟩⟩

theorem readBefore_succ {src : List UInt8} {p : Nat} (h : p < src.length) :
    readBefore src (p + 1) = some (readLe ((src.drop p).take 1)) := by
  rw [readBefore, if_neg (Nat.succ_ne_zero p), Nat.add_sub_cancel, read_eq (Nat.succ_le_of_lt h)]

theorem catchUpLoop_spec {anchor ip found : Nat} (hanchor : anchor ≤ ip) (hlt : found < ip)
    (hip : ip ≤ c.src.length) :
    ∃ place j, c.catchUpLoop anchor found ip = some place ∧
      CaughtUp c.src anchor ip found place j := by
  induction found generalizing ip with
  | zero => exact ⟨_, 0, rfl, .zero hanchor⟩
  | succ found ih =>
      rw [Call.catchUpLoop]
      split
      next hmore =>
        obtain ⟨ip, rfl⟩ : ∃ i, ip = i + 1 := ⟨ip - 1, by omega⟩
        have hip' : ip < c.src.length := hip
        have hfound : found < c.src.length := by omega
        rw [readBefore_succ hip', readBefore_succ hfound]
        dsimp only [Option.bind_eq_bind, Option.bind_some]
        split
        next heq =>
          obtain ⟨place, j, hloop, hcaught⟩ :=
            ih (Nat.le_of_lt_succ hmore) (Nat.lt_of_succ_lt_succ hlt) (Nat.le_of_succ_le hip)
          exact ⟨place, j + 1, hloop, hcaught.succ ((readLe_eq_iff hip' hfound).mp heq)⟩
        next => exact ⟨_, 0, rfl, .zero hanchor⟩
      next => exact ⟨_, 0, rfl, .zero hanchor⟩

theorem catchUp_spec {anchor ip found : Nat} (hanchor : anchor < ip) (hlt : found < ip)
    (hip : ip ≤ c.src.length) :
    ∃ place j, c.catchUp anchor ip found = some place ∧
      CaughtUp c.src anchor ip found place j := by
  rw [Call.catchUp]
  split
  next hpos =>
    obtain ⟨ip, rfl⟩ : ∃ i, ip = i + 1 := ⟨ip - 1, by omega⟩
    obtain ⟨found, rfl⟩ : ∃ i, found = i + 1 := ⟨found - 1, by omega⟩
    have hip' : ip < c.src.length := hip
    have hfound : found < c.src.length := by omega
    rw [readBefore_succ hip', readBefore_succ hfound]
    dsimp only [Option.bind_eq_bind, Option.bind_some]
    split
    next heq =>
      obtain ⟨place, j, hloop, hcaught⟩ := catchUpLoop_spec (c := c)
        (Nat.le_of_lt_succ hanchor) (Nat.lt_of_succ_lt_succ hlt) (Nat.le_of_succ_le hip)
      exact ⟨place, j + 1, hloop, hcaught.succ ((readLe_eq_iff hip' hfound).mp heq)⟩
    next => exact ⟨_, 0, rfl, .zero (Nat.le_of_lt hanchor)⟩
  next => exact ⟨_, 0, rfl, .zero (Nat.le_of_lt hanchor)⟩

end

/-! ## What holds at the labels -/

/-- The destination has the sequences of the source up to the anchor. -/
structure Written (c : Call) (v : Vars) (seqs : List Sequence) : Prop where
  spells : Spells c.src v.anchor seqs
  op : v.op = (seqs.flatMap Sequence.bytes).length
  starts : Starts v.dest (seqs.flatMap Sequence.bytes)

/-- At the head of the main loop. -/
structure Ready (c : Call) (v : Vars) (seqs : List Sequence) : Prop extends Written c v seqs where
  long : minLength ≤ c.src.length
  anchor_lt : v.anchor < v.ip
  ip_le : v.ip ≤ c.mflimitPlusOne
  hash : v.forwardH < 2 ^ tableLog c.tableType
  table : ∀ i, v.table i < v.ip

/-- The bytes of the sequences, and a sequence up to its literals. -/
def opened (seqs : List Sequence) (literals : List UInt8) : List UInt8 :=
  seqs.flatMap Sequence.bytes ++
    runToken literals.length :: (lengthBytes literals.length ++ literals)

/-- The literals between the anchor and the next match. -/
def pending (c : Call) (v : Vars) : List UInt8 := (c.src.drop v.anchor).take (v.ip - v.anchor)

/-- At `_next_match`.  The match was found at `seen`, and was extended to the left. -/
structure Matched (c : Call) (v : Vars) (found token seen : Nat) (seqs : List Sequence) : Prop where
  spells : Spells c.src v.anchor seqs
  token : token = (seqs.flatMap Sequence.bytes).length
  op : v.op = (opened seqs (pending c v)).length
  starts : Starts v.dest (opened seqs (pending c v))
  room : v.op + 2 ≤ c.cap
  anchor_le : v.anchor ≤ v.ip
  lt : found < v.ip
  near : v.ip - found ≤ distanceMax
  ip_le : v.ip ≤ seen
  seen_le : seen + mfLimit ≤ c.src.length
  same : Same c.src v.ip found (seen - v.ip + minMatch)
  table : ∀ i, v.table i ≤ seen

/-- Where the function may go on.  Only a destination that is limited can be too
small. -/
inductive Good (c : Call) : Jump → Prop where
  | mainLoop {v : Vars} {seqs : List Sequence} : Ready c v seqs → Good c (.mainLoop v)
  | nextMatch {v : Vars} {found token seen : Nat} {seqs : List Sequence} :
      Matched c v found token seen seqs → Good c (.nextMatch v found token)
  | lastLiterals {v : Vars} {seqs : List Sequence} : Written c v seqs → Good c (.lastLiterals v)
  | fail : c.outputDirective = .limitedOutput → Good c .fail

/-- A bound of the number of jumps that are left. -/
def Jump.rank (c : Call) : Jump → Nat
  | .mainLoop v => 2 * (c.src.length - v.anchor) + 3
  | .nextMatch v _ _ => 2 * (c.src.length - v.anchor) + 2
  | .lastLiterals _ => 1
  | .fail => 1

section

variable {c : Call} {v : Vars} {seqs : List Sequence}

theorem length_pending (hle : v.anchor ≤ v.ip) (hip : v.ip ≤ c.src.length) :
    (pending c v).length = v.ip - v.anchor := length_take_drop (by omega)

theorem length_opened (seqs : List Sequence) (literals : List UInt8) :
    (opened seqs literals).length = (seqs.flatMap Sequence.bytes).length + literals.length +
      (literals.length + 240) / 255 + 1 := by
  simp only [opened, List.length_append, List.length_cons, length_lengthBytes]
  omega

/-! ## Steps -/

/-- The literals before a match are written, or there is no room for them. -/
theorem Written.encodeLiterals (hc : c.Ok) (h : Written c v seqs) (hle : v.anchor ≤ v.ip)
    (hip : v.ip + mfLimit ≤ c.src.length) :
    (c.outputDirective = .limitedOutput ∧ c.encodeLiterals v = some none) ∨
      ∃ dest, c.encodeLiterals v =
          some (some { v with op := (opened seqs (pending c v)).length, dest }) ∧
        Starts dest (opened seqs (pending c v)) ∧
        (opened seqs (pending c v)).length + 2 ≤ c.cap := by
  have hbytes := h.spells.length_flatMap_le
  have hop := h.op
  have hpending := length_pending (c := c) hle (by rw [mfLimit] at hip; omega)
  have hlength := length_opened seqs (pending c v)
  rw [hpending] at hlength
  simp only [mfLimit] at hip
  rw [Call.encodeLiterals]
  dsimp only
  split
  next hover => exact .inl ⟨limited_of_overflows hover, rfl⟩
  next hfits =>
    refine .inr ?_
    have hroom := hc.room_of hfits
    simp only [lastLiterals] at hroom
    have hhead : (seqs.flatMap Sequence.bytes ++
        runToken (v.ip - v.anchor) :: lengthBytes (v.ip - v.anchor)).length =
        (seqs.flatMap Sequence.bytes).length + 1 + (v.ip - v.anchor + 240) / 255 := by
      rw [List.length_append, List.length_cons, length_lengthBytes]
      omega
    obtain ⟨dest, hrun, hstarts⟩ := h.starts.putRun (c := c) (n := v.ip - v.anchor) (by omega)
    have hread : v.anchor + max 8 (v.ip - v.anchor + 7) ≤ c.src.length := by omega
    have hwrite : (seqs.flatMap Sequence.bytes ++
        runToken (v.ip - v.anchor) :: lengthBytes (v.ip - v.anchor)).length +
        max 8 (v.ip - v.anchor + 7) ≤ c.cap := by omega
    obtain ⟨dest', hcopy, hstarts'⟩ :=
      hstarts.wildCopy8 (Nat.lt_succ_self (v.ip - v.anchor)) hread hwrite
    have hopened : opened seqs (pending c v) = seqs.flatMap Sequence.bytes ++
        runToken (v.ip - v.anchor) :: lengthBytes (v.ip - v.anchor) ++
        (c.src.drop v.anchor).take (v.ip - v.anchor) := by
      rw [opened, hpending, pending, List.append_assoc, List.cons_append]
    refine ⟨dest', ?_, by rw [hopened]; exact hstarts', by omega⟩
    rw [hop, hrun]
    dsimp only [Option.bind_eq_bind, Option.bind_some]
    rw [hcopy, Option.bind_some, hhead, hlength]
    congr 3
    omega

/-- A match that is found is written, with the literals before it. -/
theorem Ready.mainLoop (hc : c.Ok) (h : Ready c v seqs) :
    ∃ j, c.mainLoop v = some j ∧ Good c j ∧ j.rank c < Jump.rank c (.mainLoop v) := by
  have hlimit := mflimitPlusOne_eq h.long
  have hnb : 1 ≤ (c.acceleration <<< skipTrigger) >>> skipTrigger := by
    rw [Nat.shiftLeft_shiftRight]
    exact hc.acceleration
  have hfuel : c.mflimitPlusOne - v.ip < c.src.length + 1 := by omega
  obtain ⟨place, forwardH, table, hsearch, hfound⟩ :=
    hc.search_spec h.long h.hash h.ip_le (Nat.le_refl 1) hnb h.table hfuel
  rw [Call.mainLoop, hsearch]
  dsimp only [Option.bind_eq_bind, Option.bind_some]
  rcases place with _ | ⟨ip, found⟩
  · refine ⟨_, rfl, .lastLiterals (show Written c _ seqs from ⟨h.spells, h.op, h.starts⟩), ?_⟩
    simp only [Jump.rank]
    omega
  · have hmatch := hfound ip found rfl
    have hfrom := hmatch.from_le
    have hip := hmatch.ip_le
    have hlt := hmatch.lt
    have hnear := hmatch.near
    have hanchor := h.anchor_lt
    have hbehind : v.anchor < ip := by omega
    have hin : ip ≤ c.src.length := Nat.le_trans (Nat.le_add_right ..) hip
    obtain ⟨⟨ip', found'⟩, k, hcatch, hcaught⟩ := catchUp_spec hbehind hlt hin
    obtain ⟨rfl, rfl, hanchor', hsame⟩ := hcaught
    dsimp only at hanchor' hsame hlt hip hnear hmatch hcatch ⊢
    rw [hcatch]
    dsimp only [Option.bind_some]
    have hwritten : Written c { v with ip := ip', forwardH, table } seqs :=
      ⟨h.spells, h.op, h.starts⟩
    rcases hwritten.encodeLiterals hc hanchor' (by dsimp only; omega) with
      ⟨hlimited, hencode⟩ | ⟨dest, hencode, hstarts, hroom⟩
    · rw [hencode]
      refine ⟨_, rfl, .fail hlimited, ?_⟩
      simp only [Jump.rank]
      omega
    · rw [hencode]
      refine ⟨_, rfl, .nextMatch (show Matched c _ _ _ (ip' + k) seqs from
        { spells := h.spells, token := h.op, op := rfl, starts := hstarts, room := hroom,
          anchor_le := hanchor', lt := by dsimp only; omega, near := by dsimp only; omega,
          ip_le := Nat.le_add_right .., seen_le := hip, same := ?_, table := hmatch.table }), ?_⟩
      · dsimp only
        rw [Nat.add_sub_cancel_left]
        exact same_add.mpr ⟨hsame, hmatch.same⟩
      · simp only [Jump.rank]
        omega

/-- What holds when a match was written. -/
structure Ended (c : Call) (v : Vars) (seqs : List Sequence) : Prop extends Written c v seqs where
  anchor : v.anchor = v.ip
  room : v.op + 3 ≤ c.cap
  long : minLength ≤ c.src.length
  table : ∀ i, v.table i + minMatch ≤ v.ip

/-- After a match there is another one at once, or the search goes on, or the
source ends. -/
theorem Ended.afterMatch (hc : c.Ok) (h : Ended c v seqs) :
    ∃ j, c.afterMatch v = some j ∧ Good c j ∧ j.rank c ≤ 2 * (c.src.length - v.anchor) + 3 := by
  have hlimit := mflimitPlusOne_eq h.long
  have hsize := hc.size_lt
  have hanchor := h.anchor
  have hroom := h.room
  have htable := h.table
  simp only [minMatch] at htable
  have hip := htable 0
  rw [Call.afterMatch]
  split
  next => exact ⟨_, rfl, .lastLiterals h.toWritten, Nat.le_add_left ..⟩
  next hmore =>
    have hbegins : v.ip + mfLimit ≤ c.src.length := by
      rw [mfLimit]
      omega
    have hbefore : v.ip - 2 + mfLimit ≤ c.src.length := by omega
    have hin : v.ip + 1 + 8 ≤ c.src.length := by omega
    have hin' : v.ip + 8 ≤ c.src.length := by omega
    have hin'' : v.ip - 2 + 8 ≤ c.src.length := by omega
    obtain ⟨h₁, hhash₁, hh₁⟩ := hashPosition_spec hin'' c.tableType
    obtain ⟨h₂, hhash₂, hh₂⟩ := hashPosition_spec hin' c.tableType
    obtain ⟨h₃, hhash₃, hh₃⟩ := hashPosition_spec hin c.tableType
    have htable₁ : ∀ i, Function.update v.table h₁ (v.ip - 2) i ≤ v.ip - 2 :=
      update_le (fun i => by have := htable i; omega) (Nat.le_refl _)
    have htable₂ : ∀ i, Function.update (Function.update v.table h₁ (v.ip - 2)) h₂ v.ip i ≤ v.ip :=
      update_le (fun i => Nat.le_trans (htable₁ i) (Nat.sub_le ..)) (Nat.le_refl _)
    have hmod : v.ip % 2 ^ 32 = v.ip := Nat.mod_eq_of_lt (by omega)
    have hindex := htable₁ h₂
    have hread : Function.update v.table h₁ (v.ip - 2) h₂ + 4 ≤ c.src.length := by omega
    have hread' : v.ip + 4 ≤ c.src.length := by omega
    have hgoOn : ∃ j, (do
          let forwardH ← hashPosition c.src (v.ip + 1) c.tableType
          some (Jump.mainLoop { v with
            ip := v.ip + 1
            table := Function.update (Function.update v.table h₁ (v.ip - 2)) h₂ v.ip
            forwardH })) = some j ∧ Good c j ∧ j.rank c ≤ 2 * (c.src.length - v.anchor) + 3 := by
      rw [hhash₃]
      refine ⟨_, rfl, .mainLoop (show Ready c _ seqs from
        ⟨⟨h.spells, h.op, h.starts⟩, h.long, ?_, ?_, hh₃, ?_⟩), Nat.le_refl _⟩
      · dsimp only
        omega
      · dsimp only
        omega
      · exact fun i => Nat.lt_succ_of_le (htable₂ i)
    rw [hhash₁, hhash₂]
    dsimp only [Option.bind_eq_bind, Option.bind_some]
    rw [hc.putIndexOnHash_eq hh₁ hbefore, Option.bind_some, getIndexOnHash_eq hh₂, Option.bind_some,
      hc.putIndexOnHash_eq hh₂ hbegins, Option.bind_some, hmod]
    split
    next hnear =>
      rw [read_eq hread, read_eq hread']
      dsimp only [Option.bind_some]
      by_cases heq : readLe ((c.src.drop (Function.update v.table h₁ (v.ip - 2) h₂)).take 4) =
          readLe ((c.src.drop v.ip).take 4)
      · have hwrite : v.op + [(0 : UInt8)].length ≤ c.cap := by
          rw [List.length_singleton]
          omega
        rw [decide_eq_true heq, if_pos rfl, write_eq hwrite]
        have hpending : pending c { v with
            op := v.op + 1
            table := Function.update (Function.update v.table h₁ (v.ip - 2)) h₂ v.ip
            dest := v.dest.store v.op [0] } = [] := by
          rw [pending, hanchor, Nat.sub_self, List.take_zero]
        have hopened : opened seqs [] = seqs.flatMap Sequence.bytes ++ [0] := rfl
        refine ⟨_, rfl, .nextMatch (show Matched c _ _ _ v.ip seqs from
          { spells := h.spells, token := h.op, op := ?_, starts := ?_, room := ?_,
            anchor_le := Nat.le_of_eq hanchor, lt := ?_, near := ?_, ip_le := Nat.le_refl _,
            seen_le := hbegins, same := ?_, table := htable₂ }), ?_⟩
        · rw [hpending, hopened, List.length_append, ← h.op, List.length_singleton]
        · rw [hpending, hopened, h.op]
          exact h.starts.store [0]
        · dsimp only
          omega
        · dsimp only
          omega
        · dsimp only
          rcases hnear with ht | hnear
          · have hsmall := hc.small ht
            simp only [limit64K, mfLimit, distanceMax] at hsmall hbegins ⊢
            omega
          · omega
        · rw [Nat.sub_self]
          exact (readLe_eq_iff hread' hread).mp heq.symm
        · exact Nat.le_succ _
      · rw [decide_eq_false heq, if_neg Bool.false_ne_true]
        exact hgoOn
    next => exact hgoOn

section

variable {found token seen : Nat}

theorem Matched.length_pending (h : Matched c v found token seen seqs) :
    (pending c v).length = v.ip - v.anchor := by
  have hseen := h.ip_le
  have hbegins := h.seen_le
  exact Compressor.length_pending h.anchor_le (by omega)

/-- The match is at least as long as what the search and the extension compared,
and ends before the last literals. -/
theorem Matched.count (hc : c.Ok) (h : Matched c v found token seen seqs) :
    ∃ matchCode,
      Compressor.count c.src (v.ip + minMatch) (found + minMatch) c.matchlimit = some matchCode ∧
        seen ≤ v.ip + matchCode ∧ v.ip + (matchCode + 4) + 5 ≤ c.src.length ∧
        Same c.src v.ip found (matchCode + 4) := by
  have hlt := h.lt
  have hseen := h.ip_le
  have hbegins := h.seen_le
  have hsame := h.same
  simp only [mfLimit, minMatch, Call.matchlimit, lastLiterals] at hbegins hsame ⊢
  rw [Nat.add_comm] at hsame
  obtain ⟨hfour, hrest⟩ := same_add.mp hsame
  have hle : commonBytes c.src (c.src.length - 5 - (v.ip + 4)) (v.ip + 4) (found + 4) ≤ _ :=
    commonBytes_le
  have hcount := count_eq_commonBytes c.src (v.ip + 4) (found + 4) (c.src.length - 5) (by omega)
    (by omega) (by omega)
  rw [Nat.mod_eq_of_lt (Nat.lt_of_le_of_lt (by omega) hc.size_lt)] at hcount
  refine ⟨_, hcount, ?_, ?_, ?_⟩
  · have hreach := le_commonBytes_iff.mpr
      ⟨show seen - v.ip ≤ c.src.length - 5 - (v.ip + 4) by omega, hrest⟩
    omega
  · omega
  · rw [Nat.add_comm]
    exact same_add.mpr ⟨hfour, same_commonBytes⟩

/-- The literals and the match are the next sequence of the source. -/
theorem Matched.sequence_of (h : Matched c v found token seen seqs) {matchCode : Nat}
    (hends : v.ip + (matchCode + 4) + 5 ≤ c.src.length)
    (hsame : Same c.src v.ip found (matchCode + 4)) :
    Sequence.Of ⟨pending c v, v.ip - found, matchCode⟩ c.src v.anchor := by
  have hpending := h.length_pending
  have hle := h.anchor_le
  have hlt := h.lt
  have hnear := h.near
  have hseen := h.ip_le
  have hbegins := h.seen_le
  simp only [mfLimit, distanceMax] at hbegins hnear
  have hip : v.anchor + (pending c v).length = v.ip := by omega
  exact {
    literals := by
      dsimp only
      rw [hpending, pending]
    offset_pos := by dsimp only; omega
    offset_le := by dsimp only; omega
    offset_lt := by dsimp only; omega
    copies := by
      have hfound : v.ip - (v.ip - found) = found := by omega
      dsimp only
      rw [hip, hfound]
      exact hsame
    begins := by dsimp only; omega
    ends := by dsimp only; omega }

/-- A match is written as long as it is, and the anchor moves behind it. -/
theorem Matched.nextMatch (hc : c.Ok) (h : Matched c v found token seen seqs) :
    ∃ j, c.nextMatch v found token = some j ∧ Good c j ∧
      j.rank c < Jump.rank c (.nextMatch v found token) := by
  have hop := h.op
  have hle := h.anchor_le
  have hpending := h.length_pending
  obtain ⟨matchCode, hcount, hreach, hends, hsame⟩ := h.count hc
  have hof := h.sequence_of hends hsame
  have hspells := h.spells.snoc hof
  have hbytes := hspells.length_flatMap_le
  have hnext : v.anchor + (pending c v).length + (matchCode + 4) =
      v.ip + (matchCode + minMatch) := by
    rw [minMatch]
    omega
  dsimp only at hspells hbytes
  rw [hnext] at hspells hbytes
  have hwrite : v.op + (le 2 (v.ip - found)).length ≤ c.cap := by
    rw [length_le]
    exact h.room
  have hstarts := h.starts.store (le 2 (v.ip - found))
  have hopened : opened seqs (pending c v) ++ le 2 (v.ip - found) =
      seqs.flatMap Sequence.bytes ++ runToken (pending c v).length ::
        (lengthBytes (pending c v).length ++ pending c v ++ le 2 (v.ip - found)) := by
    rw [opened, List.append_assoc, List.cons_append]
  have hlength : (opened seqs (pending c v) ++ le 2 (v.ip - found)).length = v.op + 2 := by
    rw [List.length_append, length_le, hop]
  have htotal : ((seqs ++ [(⟨pending c v, v.ip - found, matchCode⟩ : Sequence)]).flatMap
      Sequence.bytes).length = v.op + 2 + (matchCode + 240) / 255 := by
    rw [List.flatMap_append, List.length_append, List.flatMap_singleton, Sequence.length_bytes, hop,
      length_opened]
    dsimp only
    omega
  rw [htotal, minMatch] at hbytes
  rw [← hop, hopened] at hstarts
  rw [hopened] at hlength
  rw [Call.nextMatch, write_eq hwrite, hcount]
  dsimp only [Option.bind_eq_bind, Option.bind_some]
  split
  next hover =>
    refine ⟨_, rfl, .fail (limited_of_overflows hover), ?_⟩
    simp only [Jump.rank]
    omega
  next hfits =>
    have hroom := hc.room_of hfits
    simp only [lastLiterals] at hroom
    have hneed : v.op + 2 + (matchCode + 240) / 255 + 3 ≤ c.cap := by omega
    obtain ⟨dest, hencode, hstarts'⟩ := hstarts.encodeMatchLength (hlength ▸ hneed)
    rw [hlength] at hencode
    rw [h.token, hencode]
    have hended : Ended c { v with
        ip := v.ip + (matchCode + minMatch)
        op := v.op + 2 + (matchCode + 240) / 255
        dest
        anchor := v.ip + (matchCode + minMatch) }
        (seqs ++ [⟨pending c v, v.ip - found, matchCode⟩]) :=
      { spells := hspells
        op := htotal.symm
        starts := by
          rw [List.flatMap_append, List.flatMap_singleton, Sequence.bytes, Sequence.token]
          simpa using hstarts'
        anchor := rfl
        room := hneed
        long := by
          have hlt := h.lt
          have hseen := h.ip_le
          have hbegins := h.seen_le
          rw [minLength]
          omega
        table := fun i => by
          have htable := h.table i
          dsimp only
          omega }
    obtain ⟨j, hafter, hgood, hrank⟩ := hended.afterMatch hc
    refine ⟨j, hafter, hgood, Nat.lt_of_le_of_lt hrank ?_⟩
    simp only [Jump.rank, minMatch]
    omega

end

/-! ## Runs -/

theorem literalBlock_eq (last : List UInt8) : literalBlock last =
    runToken last.length :: (lengthBytes last.length ++ last) := by
  rw [literalBlock, runToken, nibble, lengthBytes]
  split
  next h => rw [Nat.min_eq_left (Nat.le_of_lt h), List.nil_append]
  next h =>
    rw [Nat.min_eq_right (Nat.le_of_not_lt h)]
    rfl

/-- What a call ends with: a block of the source that fits, or 0 if the
destination was limited. -/
def Result (c : Call) (result : Option (Option (List UInt8))) : Prop :=
  (c.outputDirective = .limitedOutput ∧ result = some none) ∨
    ∃ n seqs, Spells c.src n seqs ∧ (block seqs (c.src.drop n)).length ≤ c.cap ∧
      result = some (some (block seqs (c.src.drop n)))

theorem Written.finish (hc : c.Ok) (h : Written c v seqs) : Result c (c.finish v) := by
  have hop := h.op
  have hbytes := h.spells.length_flatMap_le
  have hanchor := h.spells.le_length
  rw [Call.finish]
  dsimp only
  split
  next hover => exact .inl ⟨limited_of_overflows hover, rfl⟩
  next hfits =>
    refine .inr ⟨v.anchor, seqs, h.spells, ?_⟩
    have hlast : (c.src.drop v.anchor).length = c.src.length - v.anchor := List.length_drop
    have hblock : block seqs (c.src.drop v.anchor) = seqs.flatMap Sequence.bytes ++
        runToken (c.src.length - v.anchor) :: lengthBytes (c.src.length - v.anchor) ++
        c.src.drop v.anchor := by
      rw [block, literalBlock_eq, hlast, List.append_assoc, List.cons_append]
    have hhead : (seqs.flatMap Sequence.bytes ++
        runToken (c.src.length - v.anchor) :: lengthBytes (c.src.length - v.anchor)).length =
        v.op + 1 + (c.src.length - v.anchor + 240) / 255 := by
      rw [List.length_append, List.length_cons, length_lengthBytes, hop]
      omega
    have hlength : (block seqs (c.src.drop v.anchor)).length =
        v.op + 1 + (c.src.length - v.anchor + 240) / 255 + (c.src.length - v.anchor) := by
      rw [hblock, List.length_append, hhead, hlast]
    have hroom := hc.room_of hfits
    simp only [runMask] at hroom
    have hfit : (block seqs (c.src.drop v.anchor)).length ≤ c.cap := by omega
    obtain ⟨dest, hrun, hstarts⟩ := h.starts.putRun (c := c)
      (n := c.src.length - v.anchor) (by omega)
    have hstarts' := hstarts.store (c.src.drop v.anchor)
    have hread : v.anchor + (c.src.length - v.anchor) ≤ c.src.length := by omega
    have hall : (c.src.drop v.anchor).take (c.src.length - v.anchor) = c.src.drop v.anchor :=
      List.take_of_length_le (Nat.le_of_eq hlast)
    have hwrite : v.op + 1 + (c.src.length - v.anchor + 240) / 255 + (c.src.drop v.anchor).length ≤
        c.cap := by omega
    rw [hhead] at hrun hstarts'
    refine ⟨hfit, ?_⟩
    rw [← hblock] at hstarts'
    rw [hop, hrun]
    dsimp only [Option.bind_eq_bind, Option.bind_some]
    rw [bytesAt_eq hread, hall, Option.bind_some, write_eq hwrite, Option.bind_some, ← hlength,
      hstarts'.load]

/-- The function ends from every label, with a block of the source. -/
theorem Good.run (hc : c.Ok) {j : Jump} (h : Good c j) {fuel : Nat} (hfuel : j.rank c ≤ fuel) :
    Result c (c.run fuel j) := by
  induction fuel generalizing j with
  | zero =>
      cases j <;> exact absurd hfuel (Nat.not_succ_le_zero _)
  | succ fuel ih =>
      cases h with
      | mainLoop h =>
          obtain ⟨j', hstep, hgood, hrank⟩ := h.mainLoop hc
          rw [Call.run, hstep, Option.bind_some]
          exact ih hgood (by omega)
      | nextMatch h =>
          obtain ⟨j', hstep, hgood, hrank⟩ := h.nextMatch hc
          rw [Call.run, hstep, Option.bind_some]
          exact ih hgood (by omega)
      | lastLiterals h => exact h.finish hc
      | fail h => exact .inl ⟨h, rfl⟩

theorem compressGenericValidated_spec (hc : c.Ok) : Result c c.compressGenericValidated := by
  rw [Call.compressGenericValidated]
  split
  next =>
    have hwritten : Written c {} [] := ⟨.nil, rfl, starts_nil⟩
    refine (Good.lastLiterals hwritten).run hc ?_
    simp only [Jump.rank]
    omega
  next hlong =>
    have hlong' : minLength ≤ c.src.length := Nat.le_of_not_lt hlong
    have hlimit := mflimitPlusOne_eq hlong'
    have hmin : 13 ≤ c.src.length := hlong'
    have hin₀ : 0 + 8 ≤ c.src.length := by omega
    have hin₁ : 1 + 8 ≤ c.src.length := by omega
    have hbegins : 0 + mfLimit ≤ c.src.length := by
      rw [mfLimit]
      omega
    obtain ⟨h₀, hhash₀, hh₀⟩ := hashPosition_spec hin₀ c.tableType
    obtain ⟨h₁, hhash₁, hh₁⟩ := hashPosition_spec hin₁ c.tableType
    have hput : putIndexOnHash 0 h₀ (fun _ => 0) c.tableType = _ :=
      hc.putIndexOnHash_eq hh₀ hbegins
    rw [hhash₀, hhash₁]
    dsimp only [Option.bind_eq_bind, Option.bind_some]
    rw [hput, Option.bind_some]
    have hready :
        Ready c { ip := 1, forwardH := h₁, table := Function.update (fun _ => 0) h₀ 0 } [] :=
      { spells := .nil
        op := rfl
        starts := starts_nil
        long := hlong'
        anchor_lt := Nat.one_pos
        ip_le := by dsimp only; omega
        hash := hh₁
        table := fun i => Nat.lt_succ_of_le (update_le (fun _ => Nat.le_refl 0) (Nat.le_refl 0) i) }
    refine (Good.mainLoop hready).run hc ?_
    simp only [Jump.rank]
    omega

theorem compressGeneric_spec (hc : c.Ok) : Result c c.compressGeneric := by
  rw [Call.compressGeneric, if_neg (Nat.not_lt_of_le hc.size)]
  split
  next hempty =>
    have hnil : c.src = [] := List.eq_nil_of_length_eq_zero hempty
    split
    next hnone => exact .inl ⟨hnone.1, rfl⟩
    next hsome =>
      have hroom : 1 ≤ c.cap := by
        cases hd : c.outputDirective with
        | notLimited =>
            have := hc.room hd
            omega
        | limitedOutput =>
            have hcap : c.cap ≠ 0 := fun h0 => hsome ⟨hd, h0⟩
            omega
      refine .inr ⟨0, [], .nil, ?_, ?_⟩
      · rw [hnil]
        exact hroom
      · rw [write_eq hroom, hnil]
        rfl
  next => exact compressGenericValidated_spec hc

end

/-! ## The compressor -/

section

variable {src : List UInt8} {cap : Nat} {acceleration : Int}

theorem compressBound_eq (h : src.length ≤ lz4MaxInputSize) :
    compressBound src.length = src.length + src.length / 255 + 16 := by
  have hmax : src.length ≤ 0x7E000000 := h
  have hmod : src.length % 2 ^ 32 = src.length := Nat.mod_eq_of_lt (by omega)
  rw [compressBound, hmod, if_neg (Nat.not_lt_of_le h)]

/-- A block has the sequences of its source, or the source does not fit. -/
theorem compressFast_cases (src : List UInt8) (cap : Nat) (acceleration : Int) :
    (compressFast src cap acceleration = some none ∧
        (lz4MaxInputSize < src.length ∨ cap < compressBound src.length)) ∨
      ∃ n seqs, compressFast src cap acceleration = some (some (block seqs (src.drop n))) ∧
        (block seqs (src.drop n)).length ≤ cap ∧ Spells src n seqs := by
  rw [compressFast, compressFastExtState]
  generalize haccel : (if acceleration < 1 then 1
    else if acceleration > accelerationMax then accelerationMax else acceleration.toNat) = factor
  by_cases hmax : lz4MaxInputSize < src.length
  · exact .inl ⟨if_pos hmax, .inl hmax⟩
  · have hsize : src.length ≤ lz4MaxInputSize := Nat.le_of_not_lt hmax
    have hfactor : 1 ≤ factor := by
      rw [← haccel]
      split
      next => exact Nat.le_refl 1
      next hlow =>
        split
        next => decide
        next => omega
    have hok : Call.Ok
        { src
          cap
          outputDirective :=
            if compressBound src.length ≤ cap then OutputDirective.notLimited else .limitedOutput
          tableType := if src.length < limit64K then TableType.byU16 else .byU32
          acceleration := factor } :=
      { size := hsize
        small := by
          dsimp only
          split
          next h => exact fun _ => h
          next => exact fun h => by cases h
        room := by
          dsimp only
          split
          next h => exact fun _ => compressBound_eq hsize ▸ h
          next => exact fun h => by cases h
        acceleration := hfactor }
    rcases compressGeneric_spec hok with ⟨hlimited, hnone⟩ | ⟨n, seqs, hspells, hfits, hsome⟩
    · refine .inl ⟨hnone, .inr ?_⟩
      dsimp only at hlimited
      split at hlimited
      next => cases hlimited
      next h => exact Nat.lt_of_not_le h
    · exact .inr ⟨n, seqs, hsome, hfits, hspells⟩

/-- On every source, every size of the destination and every acceleration the
compressor ends and reads and writes nothing outside its buffers.  It returns a
block that fits and that decodes to the source.  It returns 0 only if the
source is too large, or the destination smaller than `LZ4_compressBound`. -/
theorem compressFast_decodes (src : List UInt8) (cap : Nat) (acceleration : Int) :
    (compressFast src cap acceleration = some none ∧
        (lz4MaxInputSize < src.length ∨ cap < compressBound src.length)) ∨
      ∃ bs, compressFast src cap acceleration = some (some bs) ∧ bs.length ≤ cap ∧
        decode bs = some src := by
  rcases compressFast_cases src cap acceleration with hnone | ⟨n, seqs, hsome, hfits, hspells⟩
  · exact .inl hnone
  · exact .inr ⟨_, hsome, hfits, hspells.decode_block⟩

/-- A block is sequences and a run of literals, and keeps to the rules of the
format: offsets from 1 to 65535, matches that begin 12 bytes before the end of
the source or earlier, and 5 bytes of literals at the end. -/
theorem compressFast_spells (src : List UInt8) (cap : Nat) (acceleration : Int) (bs : List UInt8)
    (h : compressFast src cap acceleration = some (some bs)) :
    ∃ n seqs, bs = seqs.flatMap Sequence.bytes ++ literalBlock (src.drop n) ∧
      Spells src n seqs := by
  rcases compressFast_cases src cap acceleration with ⟨hnone, -⟩ | ⟨n, seqs, hsome, -, hspells⟩
  · rw [hnone] at h
    cases h
  · rw [hsome] at h
    cases h
    exact ⟨n, seqs, rfl, hspells⟩

/-- Twenty equal bytes: a literal, a match at distance 1, and five literals. -/
theorem compressFast_spells_twenty :
    ∃ n seqs, [26, 97, 1, 0, 80, 97, 97, 97, 97, 97] =
      seqs.flatMap Sequence.bytes ++ literalBlock ((List.replicate 20 97).drop n) ∧
      Spells (List.replicate 20 97) n seqs :=
  compressFast_spells (List.replicate 20 97) 64 1 _ (by decide +kernel)

end

end Compressor

/-! ## The build -/

/-- With the compressor of `lz4.c`, called as the writer calls it, and with any
decompressor that decodes the blocks of the format, a build does all that the
writer and the dumper rely on. -/
theorem lawful_of_compressFast (B : Build)
    (hcompress : ∀ src cap, Compressor.compressFast src cap 1 = some (B.compressFast src cap))
    (hdecompress : ∀ bs src, decode bs = some src → B.blockDecompress bs src.length = .ok src) :
    B.Lawful := by
  have hblock : ∀ src cap bs, B.compressFast src cap = some bs → decode bs = some src := by
    intro src cap bs hbs
    have hcall := hcompress src cap
    rw [hbs] at hcall
    rcases Compressor.compressFast_cases src cap 1 with ⟨hnone, -⟩ | ⟨n, seqs, hsome, -, hspells⟩
    · rw [hnone] at hcall
      cases hcall
    · rw [hsome] at hcall
      cases hcall
      exact hspells.decode_block
  refine ⟨fun src cap hmax hcap => ?_, hblock,
    fun src cap bs hbs => hdecompress _ _ (hblock _ _ _ hbs)⟩
  have hcall := hcompress src cap
  rcases Compressor.compressFast_cases src cap 1 with ⟨-, hlarge | hsmall⟩ | ⟨n, seqs, hsome, -, -⟩
  · exact absurd hlarge (Nat.not_lt_of_le hmax)
  · exact absurd hsmall (Nat.not_lt_of_le hcap)
  · rw [hsome] at hcall
    exact ⟨_, (Option.some_inj.mp hcall).symm⟩

/-- A build with the compressor of `lz4.c`. -/
def lz4Build : Build where
  gitHash := 0
  compressFast src cap := (Compressor.compressFast src cap 1).join
  blockDecompress := literalBuild.blockDecompress

theorem lz4Build_compressFast (src : List UInt8) (cap : Nat) :
    Compressor.compressFast src cap 1 = some (lz4Build.compressFast src cap) := by
  rcases Compressor.compressFast_cases src cap 1 with ⟨hnone, -⟩ | ⟨n, seqs, hsome, -, -⟩
  · simp [lz4Build, hnone]
  · simp [lz4Build, hsome]

theorem literalBuild_blockDecompress {bs src : List UInt8} (h : decode bs = some src) :
    literalBuild.blockDecompress bs src.length = .ok src := by
  simp [literalBuild, h]

theorem lz4Build_lawful : lz4Build.Lawful :=
  lawful_of_compressFast lz4Build lz4Build_compressFast fun _ _ => literalBuild_blockDecompress

end Coldtrace
